import FeatureDepot.Proofs.Metadata.Additions
import Mathlib.Data.List.Induction

/-! Documents with a history: artifacts were added to them in any order, some as local copies.
Fields that every addition sets tell of the last one, those that local copies set tell of the last
local copy, and the list of versions grows by the new ones in the order in which they came. So a
history that is repeated changes nothing. -/
namespace FeatureDepot

namespace Metadata

variable {versions added more : List String} {version : String}

lemma unlisted_append (versions added more : List String) : unlisted versions (added ++ more) =
    unlisted versions added ++ unlisted (versions ++ unlisted versions added) more := by
  have hboth := foldl_addVersion { versions } (added ++ more)
  rw [List.foldl_append, foldl_addVersion, foldl_addVersion] at hboth
  have hversions := congrArg (·.versions) hboth
  dsimp only at hversions
  rw [List.append_assoc] at hversions
  exact (List.append_cancel_left hversions).symm

lemma mem_append_unlisted (h : version ∈ added) :
    version ∈ versions ++ unlisted versions added := by
  by_cases hold : version ∈ versions
  · exact List.mem_append_left _ hold
  · refine List.mem_append_right _ ?_
    rw [unlisted, List.mem_eraseDups]
    exact List.mem_filter.mpr ⟨h, by simpa using hold⟩

lemma unlisted_eq_nil (h : ∀ version ∈ added, version ∈ versions) :
    unlisted versions added = [] := by
  have hnone : added.filter (· ∉ versions) = [] :=
    List.filter_eq_nil_iff.mpr fun version hversion => by simpa using h version hversion
  rw [unlisted, hnone, List.eraseDups_nil]

lemma addArtifact_eq (m : Metadata) (a : Artifact) : m.addArtifact a = { m with
    group := some a.group
    name := some a.name
    modelVersion := some currentModel
    versions := m.versions ++ unlisted m.versions [a.baseVersion] } :=
  foldl_addArtifact m (List.cons_ne_nil a []) (by simp)

end Metadata

/-- An artifact that is added to a document: as one of all versions, or as a local copy that was
made at a time. -/
inductive Addition
  | listed (artifact : Artifact)
  | localCopy (artifact : Artifact) (time : String)

namespace Addition
open Metadata

def artifact : Addition → Artifact
  | listed a => a
  | localCopy a _ => a

/-- The local copy that is added, with its time. -/
def copy? : Addition → Option (Artifact × String)
  | listed _ => none
  | localCopy a time => some (a, time)

/-- What an addition makes of a document. -/
def apply (m : Metadata) : Addition → Metadata
  | listed a => m.addArtifact a
  | localCopy a time => m.addLocalCopy a time

/-- The local copies of a history. -/
def copies (xs : List Addition) : List (Artifact × String) := xs.filterMap copy?

variable {m : Metadata} {x : Addition} {xs : List Addition} {c : Artifact × String}

lemma copies_concat_listed (xs : List Addition) (a : Artifact) :
    copies (xs ++ [listed a]) = copies xs := by
  rw [copies, List.filterMap_append]
  exact List.append_nil _

lemma copies_concat_localCopy (xs : List Addition) (a : Artifact) (time : String) :
    copies (xs ++ [localCopy a time]) = copies xs ++ [(a, time)] := by
  rw [copies, List.filterMap_append]
  rfl

/-- What a history makes of a document, field by field. -/
theorem foldl_apply (xs : List Addition) (m : Metadata) : xs.foldl apply m = { m with
    group := (xs.getLast?.map (·.artifact.group)).or m.group
    name := (xs.getLast?.map (·.artifact.name)).or m.name
    modelVersion := (xs.getLast?.map fun _ => currentModel).or m.modelVersion
    versions := m.versions ++ unlisted m.versions (xs.map (·.artifact.baseVersion))
    version := ((copies xs).getLast?.map (·.1.baseVersion)).or m.version
    snapshot := if copies xs = [] then m.snapshot
    else some { m.snapshot.getD {} with localCopy := some true }
    lastUpdated := ((copies xs).getLast?.map (·.2)).or m.lastUpdated } := by
  -- The last addition decides, so it is taken off at the end.
  induction xs using List.reverseRecOn with
  | nil => simp [unlisted, copies]
  | append_singleton xs x ih =>
    rw [List.foldl_append, ih, List.foldl_cons, List.foldl_nil, List.map_append, List.map_singleton,
      unlisted_append, List.getLast?_concat]
    cases x with
    | listed a =>
      rw [apply, addArtifact_eq, copies_concat_listed]
      simp only [artifact, Option.map_some, Option.some_or, List.append_assoc]
    | localCopy a time =>
      rw [apply, addLocalCopy_eq, copies_concat_localCopy, List.getLast?_concat]
      simp only [artifact, Option.map_some, Option.some_or, List.append_assoc,
        List.append_eq_nil_iff, List.cons_ne_self, and_false, if_false]
      congr 2
      split <;> rfl

/-- A history that is repeated leaves the document as it is. -/
theorem foldl_apply_foldl_apply (xs : List Addition) (m : Metadata) :
    xs.foldl apply (xs.foldl apply m) = xs.foldl apply m := by
  have hlisted : unlisted (m.versions ++ unlisted m.versions (xs.map (·.artifact.baseVersion)))
      (xs.map (·.artifact.baseVersion)) = [] := unlisted_eq_nil fun _ => mem_append_unlisted
  rw [foldl_apply, foldl_apply]
  simp only [hlisted, List.append_nil, ← Option.or_assoc, Option.or_self]
  by_cases hcopies : copies xs = []
  · simp [hcopies]
  · simp [hcopies]

/-- A document after any history. Its versions are those it had, followed by the base versions of
the history that were not among them, each where it occurs first. The last addition gives it group
and name, and the last local copy version and time; a snapshot block that local copies mark keeps
its timestamp and build number. Nothing else changes, and nothing at all if the whole history is
repeated. -/
theorem document_of_history (xs : List Addition) (m : Metadata) :
    (xs.foldl apply m).versions =
      m.versions ++ ((xs.map (·.artifact.baseVersion)).filter (· ∉ m.versions)).eraseDups ∧
    (xs = [] → xs.foldl apply m = m) ∧
    (∀ x, xs.getLast? = some x → (xs.foldl apply m).group = some x.artifact.group ∧
      (xs.foldl apply m).name = some x.artifact.name ∧
      (xs.foldl apply m).modelVersion = some "1.1.0") ∧
    (copies xs = [] → (xs.foldl apply m).version = m.version ∧
      (xs.foldl apply m).lastUpdated = m.lastUpdated ∧
      (xs.foldl apply m).snapshot = m.snapshot) ∧
    (∀ a time, (copies xs).getLast? = some (a, time) →
      (xs.foldl apply m).version = some a.baseVersion ∧
      (xs.foldl apply m).lastUpdated = some time ∧
      (xs.foldl apply m).snapshot = some {
        timestamp := m.snapshot.bind Snapshot.timestamp
        buildNumber := m.snapshot.bind Snapshot.buildNumber
        localCopy := some true }) ∧
    (xs.foldl apply m).latest = m.latest ∧ (xs.foldl apply m).release = m.release ∧
    xs.foldl apply (xs.foldl apply m) = xs.foldl apply m := by
  refine ⟨?_, ?_, ?_, ?_, ?_, ?_, ?_, foldl_apply_foldl_apply xs m⟩
  · rw [foldl_apply]
    rfl
  · rintro rfl
    rfl
  · intro x hlast
    rw [foldl_apply, hlast]
    exact ⟨rfl, rfl, rfl⟩
  · intro hcopies
    rw [foldl_apply, hcopies]
    exact ⟨rfl, rfl, rfl⟩
  · intro a time hlast
    have hcopies : copies xs ≠ [] := by
      intro hnil
      rw [hnil] at hlast
      cases hlast
    rw [foldl_apply, hlast]
    refine ⟨rfl, rfl, ?_⟩
    dsimp only
    rw [if_neg hcopies]
    cases m.snapshot <;> rfl
  · rw [foldl_apply]
  · rw [foldl_apply]

/-- A document of another origin, with a version twice and a part of a snapshot block. -/
def foreign : Metadata where
  latest := some "2"
  versions := ["1", "2", "1"]
  snapshot := some { buildNumber := some 7 }

/-- Two artifacts that share a document, one of them deployed twice. -/
def shared : List Addition :=
  [listed (.ofVersionText "g" "a" "3"),
    localCopy (.ofVersionText "g" "b" "1-20240102.030405-1") "20240102030405",
    localCopy (.ofVersionText "g" "b" "1-20240103.030405-2") "20240103030405",
    listed (.ofVersionText "h" "a" "2")]

theorem document_of_history_foreign :
    (shared.foldl apply foreign).versions = ["1", "2", "1", "3", "1-SNAPSHOT"] ∧
    (shared.foldl apply foreign).group = some "h" ∧ (shared.foldl apply foreign).name = some "a" ∧
    (shared.foldl apply foreign).version = some "1-SNAPSHOT" ∧
    (shared.foldl apply foreign).lastUpdated = some "20240103030405" ∧
    (shared.foldl apply foreign).snapshot = some { buildNumber := some 7, localCopy := some true } ∧
    (shared.foldl apply foreign).latest = some "2" ∧
    shared.foldl apply (shared.foldl apply foreign) = shared.foldl apply foreign := by
  obtain ⟨hversions, -, hlast, -, hcopy, hlatest, -, hagain⟩ := document_of_history shared foreign
  obtain ⟨hgroup, hname, -⟩ := hlast _ rfl
  obtain ⟨hversion, htime, hsnapshot⟩ := hcopy _ _ rfl
  have hbase : (Artifact.ofVersionText "g" "b" "1-20240103.030405-2").baseVersion =
      "1-SNAPSHOT" := by decide +kernel
  refine ⟨hversions.trans ?_, hgroup, hname, hversion.trans (congrArg some hbase), htime, hsnapshot,
    hlatest, hagain⟩
  decide +kernel

end Addition
end FeatureDepot
