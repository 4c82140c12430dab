import FeatureDepot.Proofs.Metadata.RoundTrip

/-! What artifacts make of a document that they are added to, one after the other: the versions that
were not listed yet come behind those that were, and adding the same local copy once more changes
nothing. -/
namespace FeatureDepot
namespace Metadata

variable {m : Metadata} {a b : Artifact} {as : List Artifact} {version time : String}
  {versions added : List String}

/-- What is added to a list of versions: those that are not in it, each one once, where it occurs
first. -/
def unlisted (versions added : List String) : List String := (added.filter (· ∉ versions)).eraseDups

lemma unlisted_cons_of_mem (h : version ∈ versions) :
    unlisted versions (version :: added) = unlisted versions added := by
  rw [unlisted, List.filter_cons_of_neg (by simpa using h), unlisted]

lemma unlisted_cons_of_not_mem (h : version ∉ versions) :
    unlisted versions (version :: added) = version :: unlisted (versions ++ [version]) added := by
  rw [unlisted, List.filter_cons_of_pos (by simpa using h), List.eraseDups_cons,
    List.filter_filter, unlisted]
  congr 2
  refine List.filter_congr fun v _ => ?_
  by_cases hv : v = version <;> simp [hv]

theorem foldl_addVersion (m : Metadata) (added : List String) :
    added.foldl addVersion m = { m with versions := m.versions ++ unlisted m.versions added } := by
  induction added generalizing m with
  | nil => simp [unlisted]
  | cons version added ih =>
    rw [List.foldl_cons, ih]
    unfold addVersion
    split
    next h => rw [unlisted_cons_of_mem h]
    next h =>
      rw [unlisted_cons_of_not_mem h]
      simp

lemma addVersion_describe (m : Metadata) (a : Artifact) (version : String) :
    (m.describe a).addVersion version = (m.addVersion version).describe a := by
  unfold addVersion describe
  dsimp only
  split <;> rfl

lemma describe_describe (m : Metadata) (hgroup : a.group = b.group) (hname : a.name = b.name) :
    (m.describe b).describe a = m.describe b := by
  unfold describe
  rw [hgroup, hname]

lemma foldl_addArtifact_describe (m : Metadata)
    (h : ∀ a ∈ as, a.group = b.group ∧ a.name = b.name) :
    as.foldl addArtifact (m.describe b) =
      (as.map Artifact.baseVersion).foldl addVersion (m.describe b) := by
  induction as generalizing m with
  | nil => rfl
  | cons a as ih =>
    obtain ⟨hgroup, hname⟩ := h a List.mem_cons_self
    have hfirst : (m.describe b).addArtifact a = (m.addVersion a.baseVersion).describe b := by
      rw [addArtifact, describe_describe m hgroup hname, addVersion_describe]
    rw [List.foldl_cons, List.map_cons, List.foldl_cons, hfirst,
      ih _ fun a ha => h a (List.mem_cons_of_mem _ ha), addVersion_describe]

/-- Artifacts of one group and name, of which there is at least one, make a document of all their
versions. -/
theorem foldl_addArtifact (m : Metadata) (hne : as ≠ [])
    (h : ∀ a ∈ as, a.group = b.group ∧ a.name = b.name) :
    as.foldl addArtifact m = { m with
      group := some b.group
      name := some b.name
      modelVersion := some currentModel
      versions := m.versions ++ unlisted m.versions (as.map Artifact.baseVersion) } := by
  cases as with
  | nil => exact absurd rfl hne
  | cons a as =>
    obtain ⟨hgroup, hname⟩ := h a List.mem_cons_self
    have hfirst : m.addArtifact a = (m.describe b).addArtifact a := by
      rw [addArtifact, addArtifact, describe_describe m hgroup hname, describe,
        describe, hgroup, hname]
    rw [List.foldl_cons, hfirst, ← List.foldl_cons, foldl_addArtifact_describe m h,
      foldl_addVersion]
    rfl

/-- Local copies of one version are alike. -/
theorem addLocalCopy_congr (hgroup : a.group = b.group) (hname : a.name = b.name)
    (hversion : a.baseVersion = b.baseVersion) : m.addLocalCopy a time = m.addLocalCopy b time := by
  unfold addLocalCopy addArtifact describe
  rw [hgroup, hname, hversion]

theorem addLocalCopy_eq (m : Metadata) (a : Artifact) (time : String) :
    m.addLocalCopy a time = { m with
    group := some a.group
    name := some a.name
    modelVersion := some currentModel
    version := some a.baseVersion
    snapshot := some { m.snapshot.getD {} with localCopy := some true }
    versions := m.versions ++ unlisted m.versions [a.baseVersion]
    lastUpdated := some time } := by
  have hadd := foldl_addArtifact (b := a) m (List.cons_ne_nil a []) (by simp)
  rw [List.foldl_cons, List.foldl_nil] at hadd
  rw [addLocalCopy, hadd]
  rfl

theorem addLocalCopy_addLocalCopy (m : Metadata) (a : Artifact) (time : String) :
    (m.addLocalCopy a time).addLocalCopy a time = m.addLocalCopy a time := by
  have hlisted : unlisted (m.versions ++ unlisted m.versions [a.baseVersion]) [a.baseVersion] =
      [] := by
    by_cases h : a.baseVersion ∈ m.versions
    · rw [unlisted_cons_of_mem (List.mem_append_left _ h)]
      rfl
    · rw [unlisted_cons_of_not_mem h, unlisted_cons_of_mem (by simp)]
      rfl
  rw [addLocalCopy_eq, addLocalCopy_eq]
  dsimp only
  rw [hlisted, List.append_nil]
  rfl

variable {α : Type} {p : α → Prop} [DecidablePred p] {change : α → Metadata → Metadata}
  {items : List α}

lemma foldl_some (m : Metadata) :
    items.foldl (fun before x => if p x then some (change x (before.getD {}))
      else before) (some m) = some ((items.filter (p ·)).foldl (fun m x => change x m) m) := by
  induction items generalizing m with
  | nil => rfl
  | cons x items ih =>
    rw [List.foldl_cons]
    by_cases hx : p x
    · rw [if_pos hx, Option.getD_some, ih, List.filter_cons_of_pos (by simpa using hx),
        List.foldl_cons]
    · rw [if_neg hx, ih, List.filter_cons_of_neg (by simpa using hx)]

/-- A document that some items change comes of the changes of these items, in order, whether there
was one before or not. -/
theorem foldl_changes (change : α → Metadata → Metadata) (before : Option Metadata)
    (h : ∃ x ∈ items, p x) :
    items.foldl (fun before x => if p x then some (change x (before.getD {})) else before) before =
      some ((items.filter (p ·)).foldl (fun m x => change x m) (before.getD {})) := by
  induction items generalizing before with
  | nil => simp at h
  | cons x items ih =>
    rw [List.foldl_cons]
    by_cases hx : p x
    · rw [if_pos hx, foldl_some, List.filter_cons_of_pos (by simpa using hx), List.foldl_cons]
    · have hrest : ∃ y ∈ items, p y := by
        obtain ⟨y, hy, hpy⟩ := h
        rcases List.mem_cons.mp hy with rfl | hy
        · exact absurd hpy hx
        · exact ⟨y, hy, hpy⟩
      rw [if_neg hx, ih _ hrest, List.filter_cons_of_neg (by simpa using hx)]

/-- A change that does nothing when it is made again can as well be made once. -/
theorem foldl_const {change : Metadata → Metadata} (hidem : ∀ m, change (change m) = change m)
    (hne : items ≠ []) (m : Metadata) : items.foldl (fun m _ => change m) m = change m := by
  induction items generalizing m with
  | nil => exact absurd rfl hne
  | cons x items ih =>
    cases items with
    | nil => rfl
    | cons y items => rw [List.foldl_cons, ih (by simp), hidem]

/-- All texts of a document are read as they were written. -/
def Legible (m : Metadata) : Prop := ∀ text ∈ m.texts, OnLines text

theorem legible_empty : Legible {} := by
  intro text htext
  cases htext

end Metadata

/-- The texts that an artifact puts into documents are read as they were written. -/
structure Artifact.Legible (a : Artifact) : Prop where
  group : Metadata.OnLines a.group
  name : Metadata.OnLines a.name
  baseVersion : Metadata.OnLines a.baseVersion

namespace Metadata.Legible

variable {m : Metadata} {a : Artifact} {time : String}

theorem addArtifact (h : m.Legible) (ha : a.Legible) : (m.addArtifact a).Legible := by
  intro text htext
  have hmem : text ∈ m.texts ∨ text = a.group ∨ text = a.name ∨ text = a.baseVersion := by
    unfold Metadata.addArtifact addVersion at htext
    split at htext <;> simp only [texts, describe, List.mem_append, Option.mem_toList,
      Option.some.injEq, List.mem_singleton] at htext ⊢ <;> tauto
  rcases hmem with hold | rfl | rfl | rfl
  · exact h text hold
  · exact ha.group
  · exact ha.name
  · exact ha.baseVersion

theorem addLocalCopy (h : m.Legible) (ha : a.Legible) (htime : OnLines time) :
    (m.addLocalCopy a time).Legible := by
  intro text htext
  have hmem : text ∈ (m.addArtifact a).texts ∨ text = a.baseVersion ∨ text = time ∨
      text ∈ (m.snapshot.bind Snapshot.timestamp).toList := by
    have hsnapshot :
        ((some { m.snapshot.getD {} with localCopy := some true } : Option Snapshot).bind
          Snapshot.timestamp) = m.snapshot.bind Snapshot.timestamp := by
      cases m.snapshot <;> rfl
    unfold Metadata.addLocalCopy at htext
    simp only [texts, hsnapshot, List.mem_append, Option.mem_toList, Option.some.injEq] at htext ⊢
    tauto
  rcases hmem with hold | rfl | rfl | hold
  · exact h.addArtifact ha text hold
  · exact ha.baseVersion
  · exact htime
  · refine h text ?_
    simp only [texts, List.mem_append]
    tauto

end Metadata.Legible
end FeatureDepot
