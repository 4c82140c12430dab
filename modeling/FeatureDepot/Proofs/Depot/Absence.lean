import FeatureDepot.Proofs.Depot.Lookup

/-! Items without content. The source of an item is opened before anything else is done for it, so
an item whose source cannot be opened at its turn fails without a trace: a batch goes on as if that
item had never been in it. -/
namespace FeatureDepot

/-- Whether there is content to copy: a file that can be opened. -/
def ResolvedArtifact.openable (fs : FileSystem) (r : ResolvedArtifact) : Bool :=
  match r.file with
  | none => false
  | some source => (fs.openFile source).isOk

theorem ResolvedArtifact.openable_iff {fs : FileSystem} {r : ResolvedArtifact} :
    r.openable fs ↔ ∃ source pieces, r.file = some source ∧ fs.openFile source = .ok pieces := by
  unfold openable
  cases r.file with
  | none => simp
  | some source => cases hopen : fs.openFile source <;> simp [hopen, Except.isOk, Except.toBool]

/-- How an item fails that has no content: its artifact has no file, or that file cannot be
opened. -/
def ResolvedArtifact.Missing (fs : FileSystem) (destination : Path) (r : ResolvedArtifact)
    (failure : Failure) : Prop :=
  (r.file = none ∧ failure = { cause := .missingContent r.artifact }) ∨
    ∃ source e, r.file = some source ∧ fs.openFile source = .error e ∧
      failure = { activities := [.copying source destination], cause := .io e }

namespace Depot

variable {fs : FileSystem} {r : ResolvedArtifact}

lemma copy_of_openFile_error {source : Path} {e : IoError} (h : fs.openFile source = .error e)
    (host : Host) (destination : Path) :
    Disk.copy host source destination fs = (.error { cause := .io e }, fs) := by
  unfold Disk.copy
  rw [Disk.bind_eq, Disk.look_eq, h]
  rfl

/-- An item without content fails before anything is changed. -/
theorem materialize_of_not_openable (host : Host) (d : Depot) (h : r.openable fs = false) :
    ∃ failure, d.materialize host r fs = (.error failure, fs) ∧
    r.Missing fs (d.destination r.artifact) failure := by
  rcases hfile : r.file with _ | source
  · have hmaterialize : d.materialize host r fs =
        (.error { cause := .missingContent r.artifact }, fs) := by
      unfold materialize
      rw [hfile]
      rfl
    exact ⟨_, hmaterialize, .inl ⟨hfile, rfl⟩⟩
  · rcases hopen : fs.openFile source with e | pieces
    · have hmaterialize : d.materialize host r fs =
          (.error { activities := [.copying source (d.destination r.artifact)], cause := .io e },
            fs) := by
        unfold materialize
        simp only [hfile]
        rw [Disk.bind_eq, Disk.during_eq, copy_of_openFile_error hopen]
        rfl
      exact ⟨_, hmaterialize, .inr ⟨source, e, hfile, hopen, rfl⟩⟩
    · rw [ResolvedArtifact.openable_iff.mpr ⟨source, pieces, hfile, hopen⟩] at h
      cases h

/-- The report on an item without content, and the file system behind it. -/
theorem add_of_not_openable (host : Host) (d : Depot) (label : String) (h : r.openable fs = false) :
    ∃ failure,
    (d.add host label r).run fs = (⟨label, some (.artifact r.artifact), .failed failure⟩, fs) ∧
      r.Missing fs (d.destination r.artifact) failure := by
  obtain ⟨failure, hmaterialize, hmissing⟩ := materialize_of_not_openable host d h
  refine ⟨failure, ?_, hmissing⟩
  rw [add_run, hmaterialize]

/-- Missing content is isolated. The items that have none at their turn are reported as failed in
their positions; the report on all others, in order, and the file system in the end are those of the
batch without these items. -/
theorem materializeAll_filter_openable (host : Host) (d : Depot) (rs : List ResolvedArtifact)
    (fs : FileSystem) :
    (d.turns host rs fs).map Prod.fst = rs ∧
    (∀ (i : Nat) (r : ResolvedArtifact) (now : FileSystem),
      (d.turns host rs fs)[i]? = some (r, now) →
      r.openable now = false → ∃ failure,
      ((d.materializeAll host rs).run fs).1[i]? =
        some ⟨r.artifact.display, some (.artifact r.artifact), .failed failure⟩ ∧
      r.Missing now (d.destination r.artifact) failure) ∧
    (d.materializeAll host
        (((d.turns host rs fs).filter fun t => t.1.openable t.2).map Prod.fst)).run fs =
      ((((d.turns host rs fs).zip ((d.materializeAll host rs).run fs).1).filter fun t =>
          t.1.1.openable t.1.2).map Prod.snd,
        ((d.materializeAll host rs).run fs).2) := by
  have hreport : ((d.materializeAll host rs).run fs).1 = (d.turns host rs fs).map fun t =>
      ((d.add host t.1.artifact.display t.1).run t.2).1 := Batch.mapM_run_fst _ rs fs
  refine ⟨Batch.map_fst_turns _ rs fs, fun i r now hturn hmissing => ?_, ?_⟩
  · obtain ⟨failure, hadd, hfailure⟩ := add_of_not_openable host d r.artifact.display hmissing
    refine ⟨failure, ?_, hfailure⟩
    rw [hreport, List.getElem?_map, hturn, Option.map_some, hadd]
  · rw [hreport, Batch.map_snd_filter_zip_map _ fun t : ResolvedArtifact × FileSystem =>
      t.1.openable t.2]
    refine Batch.mapM_run_filter_turns (fun r now hr => ?_) rs fs
    obtain ⟨failure, hadd, -⟩ := add_of_not_openable host d r.artifact.display hr
    rw [hadd]

end Depot
end FeatureDepot
