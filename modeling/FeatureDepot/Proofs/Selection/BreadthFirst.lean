import FeatureDepot.Proofs.Closure.Distance
import FeatureDepot.Proofs.Selection.Reachability

/-! In which order features are selected: the requested ones first, and behind each feature in its
turn those that it needs and that were not reached before. So no feature is selected before one that
a shorter chain of dependencies leads to. -/
namespace FeatureDepot

namespace Selection

variable {all : List Feature} {names : List String} {i j : Fin all.length} {n : Nat}
  {wanted is : List (Fin all.length)}

/-- The features that a selection starts with: those that the requested texts mean, in the order of
the request, or all in the order of the descriptors if nothing is requested. -/
def Starts (all : List Feature) (names : List String) (wanted : List (Fin all.length)) : Prop :=
  if names = [] then wanted = List.finRange all.length
  else List.Forall₂ (fun name i => ∃ r, Asks name r ∧ First all r i) names wanted

/-- A chain of dependencies of a given length leads to a feature from one that is asked for. -/
inductive ReachedIn (all : List Feature) (names : List String) : Nat → Fin all.length → Prop
  | wanted {i : Fin all.length} (h : Wanted all names i) : ReachedIn all names 0 i
  | needed {n : Nat} {i j : Fin all.length} (h : ReachedIn all names n i) (hj : Needs all i j) :
    ReachedIn all names (n + 1) j

/-- The breadth-first order of features. It is what occurs first among the features to start with,
followed by the ones that the first of the order needs, by those that the second needs, and so
on. -/
structure BreadthFirst (all : List Feature) (names : List String)
    (positions : List (Fin all.length)) : Prop where
  order : ∃ (wanted : List (Fin all.length)) (needed : Fin all.length → List (Fin all.length)),
    Starts all names wanted ∧
    (∀ i ∈ positions, List.Forall₂ (First all) (all.get i).dependencies (needed i)) ∧
    positions = (wanted ++ positions.flatMap needed).eraseDups ∧ wanted.eraseDups <+: positions
  distances : ∃ distances : List Nat,
    List.Forall₂ (fun i n => IsLeast {m | ReachedIn all names m i} n) positions distances ∧
    distances.Pairwise (· ≤ ·)

lemma ReachedIn.reached (h : ReachedIn all names n i) : Reached all names i := by
  induction h with
  | wanted h => exact ⟨_, h, .refl⟩
  | needed _ hj ih =>
    obtain ⟨origin, horigin, hpath⟩ := ih
    exact ⟨origin, horigin, hpath.tail hj⟩

lemma starts_of_first_eq_ok (h : first all names = .ok wanted) : Starts all names wanted := by
  unfold first at h
  unfold Starts
  cases names with
  | nil => exact (Except.ok.inj h).symm
  | cons name names =>
    rw [List.isEmpty_cons, if_neg Bool.false_ne_true, Batch.mapM_eq_ok_iff] at h
    rw [if_neg (List.cons_ne_nil _ _)]
    exact h.imp fun name i hi => ⟨_, asks_iff.mpr rfl, start_eq_ok_iff.mp hi⟩

/-- What follows a feature in a search are the features that its references mean, in their order. -/
theorem forall₂_following {p : Unit × List (Fin all.length)} (h : next all i = .ok p) :
    List.Forall₂ (First all) (all.get i).dependencies (Closure.following (next all) i) := by
  rw [Closure.following_of_ok h]
  exact (Batch.mapM_eq_ok_iff.mp (next_eq_ok_iff.mp h)).imp fun _ _ => dependency_eq_ok_iff.mp

/-- Where all references of reached features mean something, chains of dependencies are those that a
search follows. -/
theorem reachedIn_iff_chain (hwanted : ∀ i, i ∈ wanted ↔ Wanted all names i)
    (hnext : ∀ i, Reached all names i → ∃ p, next all i = .ok p) :
    ReachedIn all names n i ↔ Closure.Chain (Closure.following (next all)) wanted n i := by
  constructor
  · intro h
    induction h with
    | wanted h => exact .start ((hwanted _).mpr h)
    | @needed n i j h hj ih =>
      obtain ⟨p, hp⟩ := hnext i h.reached
      exact .step ih (Closure.following_of_ok hp ▸ (needs_iff hp j).mp hj)
  · intro h
    induction h with
    | start h => exact .wanted ((hwanted _).mp h)
    | @step n i j _ hb ih =>
      have hedge : ∀ i p, next all i = .ok p → ∀ j, Needs all i j ↔ j ∈ p.2 := fun _ _ => needs_iff
      exact .needed ih (Closure.edge_of_mem_following hedge hb)

/-- A selection that succeeds is in breadth-first order. -/
theorem breadthFirst_of_positions_eq_ok (h : positions all names = .ok is) :
    BreadthFirst all names is := by
  have hresolves : Resolves all names := exists_positions_eq_ok_iff.mp ⟨is, h⟩
  have hnext : ∀ i, Reached all names i → ∃ p, next all i = .ok p :=
    fun i hi => exists_next_eq_ok_iff.mpr (hresolves.needed i hi)
  obtain ⟨⟨wanted, turns, hfirst, hsearch⟩, hreached⟩ := search_of_positions_eq_ok h
  have hchain : ∀ i, {n | Closure.Chain (Closure.following (next all)) wanted n i} =
      {n | ReachedIn all names n i} :=
        fun i => Set.ext fun n => (reachedIn_iff_chain (mem_iff_of_first_eq_ok hfirst) hnext).symm
  refine ⟨⟨wanted, Closure.following (next all), starts_of_first_eq_ok hfirst, ?_, hsearch.order_eq,
    hsearch.start_prefix⟩, ?_⟩
  · intro i hi
    obtain ⟨p, hp⟩ := hnext i ((hreached i).mp hi)
    exact forall₂_following hp
  · obtain ⟨distances, hleast, hsorted⟩ := hsearch.exists_distances
    exact ⟨distances, hleast.imp fun i n hn => hchain i ▸ hn, hsorted⟩

/-- If nothing is requested, the selection is all there is, in the order of the descriptors. -/
theorem BreadthFirst.eq_finRange (h : BreadthFirst all [] is) : is = List.finRange all.length := by
  obtain ⟨wanted, needed, hstarts, -, horder, -⟩ := h.order
  have hwanted : wanted = List.finRange all.length := by
    unfold Starts at hstarts
    rwa [if_pos rfl] at hstarts
  have hnone : (is.flatMap needed).removeAll (List.finRange all.length) = [] := by
    rw [List.removeAll, List.filter_eq_nil_iff]
    intro i _
    simp
  rw [hwanted, List.eraseDups_append, hnone, List.eraseDups_nil, List.append_nil] at horder
  rw [horder, Closure.eraseDups_eq_self (List.nodup_finRange _)]

end Selection

/-- Features are selected in breadth-first order. If none is requested, these are all of them in
their order. -/
theorem selectFeatures_breadthFirst {descriptors : List Descriptor} {names : List String}
    {features : List Feature} (h : selectFeatures descriptors names = .ok features) :
    ∃ positions, Selection.positions (offered descriptors) names = .ok positions ∧
      features = positions.map (offered descriptors).get ∧
      Selection.BreadthFirst (offered descriptors) names positions ∧
      (names = [] → positions = List.finRange (offered descriptors).length ∧
        features = offered descriptors) := by
  obtain ⟨positions, hpositions, rfl⟩ := selectFeatures_eq_ok_iff.mp h
  have horder := Selection.breadthFirst_of_positions_eq_ok hpositions
  refine ⟨positions, hpositions, rfl, horder, ?_⟩
  rintro rfl
  have hall := horder.eq_finRange
  refine ⟨hall, ?_⟩
  rw [hall, List.map_get_finRange]

theorem selectFeatures_breadthFirst_circle : ∃ features,
    selectFeatures Selection.circle ["a/1"] = .ok features ∧
    features.map Feature.id = ["a/1", "b"] ∧
    ∃ positions, Selection.positions (offered Selection.circle) ["a/1"] = .ok positions ∧
      features = positions.map (offered Selection.circle).get ∧
      Selection.BreadthFirst (offered Selection.circle) ["a/1"] positions := by
  have hselected : ∃ features, selectFeatures Selection.circle ["a/1"] = .ok features ∧
      features.map Feature.id = ["a/1", "b"] := ⟨_, by cbv, by cbv⟩
  obtain ⟨features, h, hids⟩ := hselected
  obtain ⟨positions, hpositions, heq, horder, -⟩ := selectFeatures_breadthFirst h
  exact ⟨features, h, hids, positions, hpositions, heq, horder⟩

end FeatureDepot
