import FeatureDepot.Proofs.Closure.Search
import FeatureDepot.Selection

/-! What a selection holds. References mean the first feature of their name and version; a selection
succeeds if and only if every reference that is reached means one, and then it holds the features
that are reached, each once. -/
namespace FeatureDepot

/-- What a reference asks of a feature: its name, and its version unless none is given or a range
stands for it. -/
def FeatureReference.Means (r : FeatureReference) (f : Feature) : Prop :=
  f.name = r.name ∧
    ∀ v, r.version = some v → f.version = some v ∨ v.toList.head? = some '[' ∨
    v.toList.head? = some '('

lemma isRange_iff (v : String) :
    isRange v = true ↔ v.toList.head? = some '[' ∨ v.toList.head? = some '(' := by
  unfold isRange
  cases v.toList with
  | nil => simp
  | cons c cs => simp

lemma FeatureReference.matches_iff (r : FeatureReference) (f : Feature) :
    r.matches f = true ↔ r.Means f := by
  unfold FeatureReference.matches FeatureReference.Means
  rw [Bool.and_eq_true, beq_iff_eq]
  refine and_congr_right fun _ => ?_
  cases r.version with
  | none => simp
  | some v =>
    cases hv : isRange v with
    | true => simp [hv, (isRange_iff v).mp hv]
    | false =>
      have hrange := mt (isRange_iff v).mpr (by simp [hv])
      simp [hv, hrange]

namespace Selection

/-- The reference that a requested text stands for. Its first slash is what a version follows. -/
inductive Asks : String → FeatureReference → Prop
  | name {name : String} (h : '/' ∉ name.toList) : Asks name ⟨none, name⟩
  | versioned {name version : String} (h : '/' ∉ name.toList) :
      Asks (name ++ "/" ++ version) ⟨some version, name⟩

theorem asks_iff {text : String} {r : FeatureReference} : Asks text r ↔ requested text = r := by
  constructor
  · intro h
    cases h with
    | name h => simp [requested, Text.cutFirst?_eq_none.mpr h]
    | @versioned name version h =>
      have hcut := Text.cutFirst?_append h version.toList
      simp [requested, hcut]
  · rintro rfl
    unfold requested
    split
    next name version h =>
      obtain ⟨htext, hname⟩ := Text.cutFirst?_eq_some h
      have heq : text = String.ofList name ++ "/" ++ String.ofList version := by
        rw [← String.toList_inj]
        simp [htext]
      rw [heq]
      exact .versioned (by simpa using hname)
    next h => exact .name (Text.cutFirst?_eq_none.mp h)

variable {all : List Feature}

def First (all : List Feature) (r : FeatureReference) (i : Fin all.length) : Prop :=
  r.Means (all.get i) ∧ ∀ j < i, ¬ r.Means (all.get j)

lemma find?_eq_some_iff {r : FeatureReference} {i : Fin all.length} :
    find? all r = some i ↔ First all r i := by
  unfold find? First
  rw [List.findFinIdx?_eq_some_iff, r.matches_iff]
  exact and_congr_right fun _ => forall₂_congr fun j _ => not_congr (r.matches_iff (all.get j))

lemma exists_first_iff {r : FeatureReference} : (∃ i, First all r i) ↔ ∃ f ∈ all, r.Means f := by
  simp only [← find?_eq_some_iff, ← r.matches_iff]
  rw [← Option.isSome_iff_exists]
  simp [find?]

/-- A feature needs the first ones that its references mean. -/
def Needs (all : List Feature) (i j : Fin all.length) : Prop :=
  ∃ r ∈ (all.get i).dependencies, First all r j

/-- A feature that is asked for: the first one that a requested text means, or any if nothing is
requested. -/
def Wanted (all : List Feature) (names : List String) (i : Fin all.length) : Prop :=
  names = [] ∨ ∃ name ∈ names, ∃ r, Asks name r ∧ First all r i

/-- A feature that is asked for, or that one of those needs, at any distance. -/
def Reached (all : List Feature) (names : List String) (i : Fin all.length) : Prop :=
  ∃ first, Wanted all names first ∧ Relation.ReflTransGen (Needs all) first i

/-- Every reference that counts means some feature. -/
structure Resolves (all : List Feature) (names : List String) : Prop where
  wanted : ∀ name ∈ names, ∃ r, Asks name r ∧ ∃ f ∈ all, r.Means f
  needed : ∀ i, Reached all names i → ∀ r ∈ (all.get i).dependencies, ∃ f ∈ all, r.Means f

theorem start_eq_ok_iff {r : FeatureReference} {i : Fin all.length} :
    start all r = .ok i ↔ First all r i := by
  rw [← find?_eq_some_iff]
  unfold start
  cases find? all r <;> simp

theorem dependency_eq_ok_iff {f : Feature} {r : FeatureReference} {i : Fin all.length} :
    dependency all f r = .ok i ↔ First all r i := by
  rw [← find?_eq_some_iff]
  unfold dependency
  cases find? all r <;> simp

theorem next_eq_ok_iff {i : Fin all.length} {p : Unit × List (Fin all.length)} :
    next all i = .ok p ↔ (all.get i).dependencies.mapM (dependency all (all.get i)) = .ok p.2 := by
  unfold next
  rw [Batch.bind_eq_ok_iff]
  constructor
  · rintro ⟨js, hjs, hp⟩
    obtain rfl := Except.ok.inj hp
    exact hjs
  · intro h
    exact ⟨p.2, h, rfl⟩

/-- What follows a feature in a search are the features that it needs. -/
theorem needs_iff {i : Fin all.length} {p : Unit × List (Fin all.length)} (h : next all i = .ok p)
    (j : Fin all.length) : Needs all i j ↔ j ∈ p.2 := by
  rw [Batch.mem_iff_of_mapM_eq_ok (next_eq_ok_iff.mp h)]
  simp only [dependency_eq_ok_iff, Needs]

/-- A search can pass a feature if and only if all that it needs is there. -/
theorem exists_next_eq_ok_iff {i : Fin all.length} :
    (∃ p, next all i = .ok p) ↔ ∀ r ∈ (all.get i).dependencies, ∃ f ∈ all, r.Means f := by
  simp only [← exists_first_iff, ← dependency_eq_ok_iff (f := all.get i)]
  rw [← Batch.exists_mapM_eq_ok_iff]
  simp only [next_eq_ok_iff]
  exact ⟨fun ⟨p, hp⟩ => ⟨p.2, hp⟩, fun ⟨js, hjs⟩ => ⟨((), js), hjs⟩⟩

lemma exists_first_eq_ok_iff {names : List String} :
    (∃ js, first all names = .ok js) ↔ ∀ name ∈ names, ∃ r, Asks name r ∧ ∃ f ∈ all, r.Means f := by
  unfold first
  cases names with
  | nil => simp
  | cons name names =>
    rw [List.isEmpty_cons, if_neg Bool.false_ne_true, Batch.exists_mapM_eq_ok_iff]
    simp only [start_eq_ok_iff, exists_first_iff, asks_iff, exists_eq_left']

theorem mem_iff_of_first_eq_ok {names : List String} {js : List (Fin all.length)}
    (h : first all names = .ok js) (i : Fin all.length) : i ∈ js ↔ Wanted all names i := by
  unfold first at h
  cases names with
  | nil =>
    obtain rfl := Except.ok.inj h
    simp [Wanted]
  | cons name names =>
    rw [List.isEmpty_cons, if_neg Bool.false_ne_true] at h
    rw [Batch.mem_iff_of_mapM_eq_ok h]
    simp [start_eq_ok_iff, Wanted, asks_iff]

theorem positions_eq_ok_iff {names : List String} {is : List (Fin all.length)} :
    positions all names = .ok is ↔ ∃ js, first all names = .ok js ∧
      ∃ visited, Closure.reach (next all) (finite_next all) js = .ok visited ∧
      is = visited.map Prod.fst := by
  unfold positions
  rw [Batch.bind_eq_ok_iff]
  refine exists_congr fun js => and_congr_right fun _ => ?_
  rw [Batch.bind_eq_ok_iff]
  refine exists_congr fun visited => and_congr_right fun _ => ?_
  exact ⟨fun h => (Except.ok.inj h).symm, fun h => congrArg Except.ok h.symm⟩

/-- Features can be selected if and only if every reference that counts means one. -/
theorem exists_positions_eq_ok_iff {names : List String} :
    (∃ is, positions all names = .ok is) ↔ Resolves all names := by
  simp only [positions_eq_ok_iff]
  constructor
  · rintro ⟨is, js, hjs, visited, hreach, -⟩
    refine ⟨exists_first_eq_ok_iff.mp ⟨js, hjs⟩, ?_⟩
    rintro i ⟨origin, horigin, hpath⟩
    have hvisit := (Closure.exists_reach_eq_ok_iff (fun _ _ => needs_iff) (finite_next all) js).mp
      ⟨visited, hreach⟩
    exact exists_next_eq_ok_iff.mp
      (hvisit origin ((mem_iff_of_first_eq_ok hjs origin).mpr horigin) i hpath)
  · intro h
    obtain ⟨js, hjs⟩ := exists_first_eq_ok_iff.mpr h.wanted
    obtain ⟨visited, hreach⟩ :=
      (Closure.exists_reach_eq_ok_iff (fun _ _ => needs_iff) (finite_next all) js).mpr
        fun origin horigin i hpath => exists_next_eq_ok_iff.mpr
        (h.needed i ⟨origin, (mem_iff_of_first_eq_ok hjs origin).mp horigin, hpath⟩)
    exact ⟨_, js, hjs, visited, hreach, rfl⟩

/-- The selected features are visited by a search from the wanted ones, and are those that are
reached. -/
theorem search_of_positions_eq_ok {names : List String} {is : List (Fin all.length)}
    (h : positions all names = .ok is) :
    (∃ js turns, first all names = .ok js ∧
      Closure.Search (Closure.following (next all)) [] js is turns) ∧
      ∀ i, i ∈ is ↔ Reached all names i := by
  obtain ⟨js, hjs, visited, hreach, rfl⟩ := positions_eq_ok_iff.mp h
  obtain ⟨⟨turns, hsearch⟩, hvisited⟩ := Closure.search_of_reach_eq_ok (finite_next all) hreach
  refine ⟨⟨js, turns, hjs, hsearch⟩, fun i => ?_⟩
  have hvisit : ∀ i ∈ visited.map Prod.fst, ∃ p, next all i = .ok p := by
    intro i hi
    obtain ⟨p, hp, rfl⟩ := List.mem_map.mp hi
    obtain ⟨items, hitems⟩ := hvisited p hp
    exact ⟨_, hitems⟩
  rw [hsearch.mem_iff_of_edges (fun _ _ => needs_iff) hvisit]
  simp only [mem_iff_of_first_eq_ok hjs]
  rfl

end Selection

theorem selectFeatures_eq_ok_iff {descriptors : List Descriptor} {names : List String}
    {features : List Feature} :
    selectFeatures descriptors names = .ok features ↔ ∃ positions,
      Selection.positions (offered descriptors) names = .ok positions ∧
      features = positions.map (offered descriptors).get := by
  unfold selectFeatures
  rw [Batch.bind_eq_ok_iff]
  refine exists_congr fun positions => and_congr_right fun _ => ?_
  exact ⟨fun h => (Except.ok.inj h).symm, fun h => congrArg Except.ok h.symm⟩

theorem exists_selectFeatures_eq_ok_iff {descriptors : List Descriptor} {names : List String} :
    (∃ features, selectFeatures descriptors names = .ok features) ↔
    Selection.Resolves (offered descriptors) names := by
  rw [← Selection.exists_positions_eq_ok_iff]
  simp only [selectFeatures_eq_ok_iff]
  exact ⟨fun ⟨_, positions, h, _⟩ => ⟨positions, h⟩, fun ⟨positions, h⟩ => ⟨_, positions, h, rfl⟩⟩

/-- The search of a selection ends from every queue, however the features need each other: every
wanted feature and every dependency of a visited one takes one turn. A selection succeeds if and
only if every requested name and every dependency of a reached feature means a feature. Then it
holds exactly the reached features, each at its position once. -/
theorem selectFeatures_reached (descriptors : List Descriptor) (names : List String) :
    (∀ queue, ∃ order,
      Closure.Search (Closure.following (Selection.next (offered descriptors))) [] queue order
      (queue.length +
        (order.flatMap (Closure.following (Selection.next (offered descriptors)))).length)) ∧
    ((∃ features, selectFeatures descriptors names = .ok features) ↔
      Selection.Resolves (offered descriptors) names) ∧
    ∀ features, selectFeatures descriptors names = .ok features →
      ∃ positions : List (Fin (offered descriptors).length),
        features = positions.map (offered descriptors).get ∧ positions.Nodup ∧
        (∀ i, i ∈ positions ↔ Selection.Reached (offered descriptors) names i) ∧
        ∃ first turns, Selection.first (offered descriptors) names = .ok first ∧
          Closure.Search (Closure.following (Selection.next (offered descriptors))) [] first
            positions turns := by
  refine ⟨fun queue => ?_, exists_selectFeatures_eq_ok_iff, fun features h => ?_⟩
  · obtain ⟨items, hitems⟩ :=
      Closure.bounded_following (Selection.finite_next (offered descriptors))
    obtain ⟨order, turns, h⟩ := Closure.exists_search hitems [] queue
    exact ⟨order, h.turns_eq ▸ h⟩
  · obtain ⟨positions, hpositions, rfl⟩ := selectFeatures_eq_ok_iff.mp h
    obtain ⟨⟨first, turns, hfirst, hsearch⟩, hreached⟩ :=
      Selection.search_of_positions_eq_ok hpositions
    exact ⟨positions, rfl, hsearch.nodup, hreached, first, turns, hfirst, hsearch⟩

namespace Selection

/-- Two features that need each other; one of them shares its name with another, which nothing
means. -/
def circle : List Descriptor :=
  [{ features := [{ name := "a", version := some "1", dependencies := [⟨none, "b"⟩] },
    { name := "c" }] },
   { features := [{ name := "b", dependencies := [⟨some "1", "a"⟩, ⟨some "[2,3)", "b"⟩] },
      { name := "b", dependencies := [⟨none, "d"⟩] }] }]

end Selection

theorem selectFeatures_reached_circle :
    ∃ features, selectFeatures Selection.circle ["a/1"] = .ok features ∧
    features.map Feature.id = ["a/1", "b"] ∧
      ∃ positions : List (Fin (offered Selection.circle).length),
        features = positions.map (offered Selection.circle).get ∧ positions.Nodup ∧
        ∀ i, i ∈ positions ↔ Selection.Reached (offered Selection.circle) ["a/1"] i := by
  have hselected : ∃ features, selectFeatures Selection.circle ["a/1"] = .ok features ∧
      features.map Feature.id = ["a/1", "b"] := ⟨_, by cbv, by cbv⟩
  obtain ⟨features, h, hids⟩ := hselected
  obtain ⟨positions, heq, hnodup, hreached, -⟩ :=
    (selectFeatures_reached Selection.circle ["a/1"]).2.2 features h
  exact ⟨features, h, hids, positions, heq, hnodup, hreached⟩

end FeatureDepot
