import FeatureDepot.Proofs.Selection.Reachability

/-! Selections among more descriptors. What is offered behind the features of a selection by name
that succeeds does not change it: a reference goes on to mean the feature that it means first, also
where later ones have the same name and version. -/
namespace FeatureDepot

namespace Selection

section Within

variable {all : List Feature} (more : List Feature)

/-- The position of a feature that others are put behind. -/
def within (i : Fin all.length) : Fin (all ++ more).length :=
  i.castLE (List.length_append ▸ Nat.le_add_right _ _)

lemma within_injective : Function.Injective (@within all more) :=
  fun _ _ h => Fin.ext (Fin.mk.inj h)

@[simp] lemma get_within (i : Fin all.length) : (all ++ more).get (within more i) = all.get i :=
  List.getElem_append_left i.isLt

/-- What comes in front of a feature is what came in front of it. -/
theorem exists_within_of_lt {i : Fin all.length} {j : Fin (all ++ more).length}
    (h : j < within more i) :
    ∃ k < i, j = within more k :=
  ⟨⟨j.val, Nat.lt_trans h i.isLt⟩, h, rfl⟩

/-- The first feature that a reference means stays the first one. -/
theorem First.within {r : FeatureReference} {i : Fin all.length} (h : First all r i) :
    First (all ++ more) r (within more i) := by
  obtain ⟨hmeans, hfirst⟩ := h
  refine ⟨(get_within more i).symm ▸ hmeans, fun j hj => ?_⟩
  obtain ⟨k, hk, rfl⟩ := exists_within_of_lt more hj
  rw [get_within]
  exact hfirst k hk

/-- A feature is followed by the same ones as before. -/
theorem next_within {i : Fin all.length} {p : Unit × List (Fin all.length)}
    (h : next all i = .ok p) :
    next (all ++ more) (within more i) = .ok (p.1, p.2.map (within more)) := by
  rw [next_eq_ok_iff, Batch.mapM_eq_ok_iff] at h ⊢
  rw [get_within, List.forall₂_map_right_iff]
  exact h.imp fun r j hj => dependency_eq_ok_iff.mpr ((dependency_eq_ok_iff.mp hj).within more)

lemma first_within {names : List String} (hnames : names ≠ []) {js : List (Fin all.length)}
    (h : first all names = .ok js) : first (all ++ more) names = .ok (js.map (within more)) := by
  have hempty : ¬ names.isEmpty := by rwa [List.isEmpty_iff]
  unfold first at h ⊢
  rw [if_neg hempty, Batch.mapM_eq_ok_iff] at h ⊢
  rw [List.forall₂_map_right_iff]
  exact h.imp fun name j hj => start_eq_ok_iff.mpr ((start_eq_ok_iff.mp hj).within more)

/-- The whole search is the same, from the first queue to the last feature. -/
theorem positions_within {names : List String} (hnames : names ≠ []) {is : List (Fin all.length)}
    (h : positions all names = .ok is) :
    positions (all ++ more) names = .ok (is.map (within more)) := by
  obtain ⟨js, hjs, visited, hvisited, rfl⟩ := positions_eq_ok_iff.mp h
  have hreach := Closure.reach_map (within_injective more) (finite_next all)
    (finite_next (all ++ more)) hvisited fun p _ items hitems => next_within more hitems
  refine positions_eq_ok_iff.mpr ⟨_, first_within more hnames hjs, _, hreach, ?_⟩
  rw [List.map_map, List.map_map]
  rfl

end Within

/-- Of a longer list of features, the same are selected, at the same positions. -/
theorem positions_append {all all' more : List Feature} (hall : all' = all ++ more)
    {names : List String} (hnames : names ≠ []) {is : List (Fin all.length)}
    (h : positions all names = .ok is) :
    ∃ is', positions all' names = .ok is' ∧ is'.map Fin.val = is.map Fin.val ∧
    is'.map all'.get = is.map all.get := by
  subst hall
  refine ⟨_, positions_within more hnames h, ?_, ?_⟩
  · rw [List.map_map]
    rfl
  · rw [List.map_map]
    exact List.map_congr_left fun i _ => get_within more i

end Selection

lemma offered_append (descriptors more : List Descriptor) :
    offered (descriptors ++ more) = offered descriptors ++ offered more := List.flatMap_append

/-- Descriptors that are added never change a selection by name that succeeds. It holds the same
features in the same order, and they are at the same positions: none of them is one that the
descriptors added offer. -/
theorem selectFeatures_append (descriptors more : List Descriptor) {names : List String}
    (hnames : names ≠ []) {features : List Feature}
    (h : selectFeatures descriptors names = .ok features) :
    selectFeatures (descriptors ++ more) names = .ok features ∧
      ∃ (is : List (Fin (offered descriptors).length)) (is' : List
        (Fin (offered (descriptors ++ more)).length)),
        Selection.positions (offered descriptors) names = .ok is ∧
        features = is.map (offered descriptors).get ∧
        Selection.positions (offered (descriptors ++ more)) names = .ok is' ∧
        is'.map Fin.val = is.map Fin.val := by
  obtain ⟨is, his, rfl⟩ := selectFeatures_eq_ok_iff.mp h
  obtain ⟨is', his', hval, hget⟩ :=
    Selection.positions_append (offered_append descriptors more) hnames his
  exact ⟨selectFeatures_eq_ok_iff.mpr ⟨is', his', hget.symm⟩, is, is', his, rfl, his', hval⟩

namespace Selection

/-- Features that look like some of the circle, and need another one. -/
def lookalikes : List Descriptor :=
  [{ features := [{ name := "a", version := some "1", dependencies := [⟨none, "d"⟩] },
    { name := "d" },
      { name := "b", version := some "2" }] }]

end Selection

theorem selectFeatures_append_lookalikes : ∃ features,
    selectFeatures Selection.circle ["a/1"] = .ok features ∧
    features.map Feature.id = ["a/1", "b"] ∧
    selectFeatures (Selection.circle ++ Selection.lookalikes) ["a/1"] = .ok features := by
  have hselected : ∃ features, selectFeatures Selection.circle ["a/1"] = .ok features ∧
      features.map Feature.id = ["a/1", "b"] := ⟨_, by cbv, by cbv⟩
  obtain ⟨features, h, hids⟩ := hselected
  have hnames : ["a/1"] ≠ [] := List.cons_ne_nil _ _
  exact ⟨features, h, hids,
    (selectFeatures_append Selection.circle Selection.lookalikes hnames h).1⟩

end FeatureDepot
