import FeatureDepot.Proofs.Depot.Lookup
import FeatureDepot.Proofs.Depot.Rewriting
import FeatureDepot.Proofs.Loading.Order

/-! What a run writes. Its tasks come to a list of writes that is settled by the plan, and so does a
second run that carries out the same tasks. -/
namespace FeatureDepot
open FeatureDepot.Path FileSystem

/-- Artifacts that can be materialized time and again: their files are no documents, and what is
told of them in documents is read as it was written. -/
structure Artifact.Lasting (a : Artifact) : Prop where
  plain : a.Plain
  legible : a.Legible
  fileName : Layout.fileName a ≠ Layout.metadataName

/-- The artifact that a task copies, if it is one. -/
def Task.artifact? : Task → Option Artifact
  | .descriptor source => some source.artifact
  | .location text => Location.artifact? text
  | .file _ => none

namespace Settings

variable {s : Settings} {host host' : Host} {last fs fs' : FileSystem} {written : Set Place}
  {t : Task} {tasks : List Task} {item : ReportItem} {report : Report} {a b : Artifact}
  {now location : String} {w q : Place}

/-- Where a run copies to lies apart from where it copies from, and no file that is copied takes the
place of a document. -/
structure Outbound (s : Settings) (w : Place) : Prop where
  localRepository : ¬ s.repository.place w <+: s.localRepository.place w ∧
    ¬ s.localRepository.place w <+: s.repository.place w
  source : ∀ c ∈ s.fileCopies, ¬ s.repository.place w <+: c.source.place w
  target : ∀ c ∈ s.fileCopies, s.repository.place w <+: (s.repository.join c.target).place w
  document : ∀ c ∈ s.fileCopies, (s.repository.join c.target).place w ∉ documents

/-- The file of the local repository that holds an artifact. -/
def localFile (s : Settings) (a : Artifact) : Path := Layout.nested.filePath s.localRepository a

/-- What copying an artifact of the local repository comes to. -/
def artifactWrites (s : Settings) (now : String) (w : Place) (a : Artifact) : List Write :=
  s.depot.writes now w ((s.localFile a).place w) a

/-- What a task comes to, unless it fails. -/
def writes (s : Settings) (now : String) (w : Place) : Task → List Write
  | .descriptor source => s.artifactWrites now w source.artifact
  | .location location => ((Location.artifact? location).map (s.artifactWrites now w)).getD []
  | .file copy => [.copy (copy.source.place w) ((s.repository.join copy.target).place w)]

theorem writes_location (h : Location.artifact? location = some a) :
    s.writes now w (.location location) = s.artifactWrites now w a := by
  simp only [writes, h, Option.map_some, Option.getD_some]

theorem writes_location_of_none (h : Location.artifact? location = none) :
    s.writes now w (.location location) = [] := by
  simp only [writes, h, Option.map_none, Option.getD_none]

/-- Tasks as they are planned. -/
def Plans (s : Settings) : Task → Prop
  | .descriptor source => source.file = some (s.localFile source.artifact) ∧
      ∃ location, Location.artifact? location = some source.artifact
  | .location _ => True
  | .file copy => copy ∈ s.fileCopies

lemma prefix_dropLast_localFile (ha : a.Plain) (s : Settings) (w : Place) :
    s.localRepository.place w <+: ((s.localFile a).place w).dropLast := by
  rw [localFile, Layout.place_filePath ha, List.append_assoc,
    List.dropLast_append_of_ne_nil (by simp)]
  exact List.prefix_append _ _

/-- Nothing is written to the files of the local repository. -/
theorem localFile_not_mem_artifactWrites (hs : s.Outbound w) (ha : a.Plain) (hb : b.Plain) :
    (s.localFile a).place w ∉ (s.artifactWrites now w b).map Write.target :=
  Depot.not_mem_writes hb hs.localRepository (prefix_dropLast_localFile ha s w)

lemma localFile_ne_target {c : FileCopy} (hs : s.Outbound w) (ha : a.Plain)
    (hc : c ∈ s.fileCopies) :
    (s.localFile a).place w ≠ (s.repository.join c.target).place w := by
  intro heq
  have hlocal := (prefix_dropLast_localFile ha s w).trans (List.dropLast_prefix _)
  rw [heq] at hlocal
  exact (List.prefix_or_prefix_of_prefix (hs.target c hc) hlocal).elim hs.localRepository.1
    hs.localRepository.2

theorem localFile_not_mem_writes (hs : s.Outbound w) (ha : a.Plain) (ht : s.Plans t)
    (hartifact : ∀ b ∈ t.artifact?, b.Lasting) :
    (s.localFile a).place w ∉ (s.writes now w t).map Write.target := by
  cases t with
  | descriptor source => exact localFile_not_mem_artifactWrites hs ha (hartifact _ rfl).plain
  | location location =>
    cases hlocation : Location.artifact? location with
    | none => simp [writes_location_of_none hlocation]
    | some b =>
      rw [writes_location hlocation]
      exact localFile_not_mem_artifactWrites hs ha (hartifact b hlocation).plain
  | file copy =>
    unfold writes
    rw [List.map_singleton, Write.copy_target, List.mem_singleton]
    exact localFile_ne_target hs ha ht

/-- An action that reports on a copy is done once more as the action is. -/
theorem ofAction_redoes {label : String} {announcement : Announcement} {action : Disk Path}
    {path : Path} {ws : List Write} (h : Redoes last written action (.ok path) ws fs fs') :
    Redoes last written (ReportItem.ofAction label announcement action).run
      ⟨label, some announcement, .copied path⟩ ws fs fs' where
  grown := h.grown
  sound := h.sound
  content := h.content
  redone late hgrown hwritten hready := by
    obtain ⟨late', hone, hlate⟩ := h.redone late hgrown hwritten hready
    refine ⟨late', ?_, hlate⟩
    rw [ReportItem.ofAction_run, hone]

/-- A report that does not tell of a failure tells of a success. -/
theorem ofAction_ok {label : String} {announcement : Announcement} {action : Disk Path}
    (h : (ReportItem.ofAction label announcement action).run fs = (item, fs'))
    (hok : ∀ failure, item.outcome ≠ .failed failure) :
    ∃ path, action fs = (.ok path, fs') ∧ item = ⟨label, some announcement, .copied path⟩ := by
  rw [ReportItem.ofAction_run] at h
  rcases hresult : action fs with ⟨failure | path, next⟩
  · rw [hresult] at h
    obtain ⟨rfl, -⟩ := Prod.mk.inj h
    exact absurd rfl (hok failure)
  · rw [hresult] at h
    obtain ⟨rfl, rfl⟩ := Prod.mk.inj h
    exact ⟨path, rfl, rfl⟩

/-- An artifact of the local repository that was copied is copied once more. -/
theorem add_redoes {label : String} {r : ResolvedArtifact} (hh : host.Successor host' last)
    (hs : fs.Sound) (hwritten : written ⊆ documents) (hnow : Metadata.OnLines host.now)
    (houtbound : s.Outbound fs.workingDirectory) (ha : r.artifact.Lasting)
    (hfile : r.file = some (s.localFile r.artifact))
    (h : (s.depot.add host label r).run fs = (item, fs'))
    (hok : ∀ failure, item.outcome ≠ .failed failure) :
    Redoes last written (s.depot.add host' label r).run item
      (s.artifactWrites host.now fs.workingDirectory r.artifact) fs fs' := by
  obtain ⟨path, hmaterialize, rfl⟩ := ofAction_ok h hok
  exact ofAction_redoes (Depot.materialize_redoes hh hs hwritten ha.plain ha.fileName ha.legible
    hnow hfile (localFile_not_mem_artifactWrites houtbound ha.plain ha.plain) hmaterialize)

/-- What is found in the local repository is the file of the artifact. -/
theorem resolve_spec {r : ResolvedArtifact} (h : fs.resolve s.localRepository a = .ok r) :
    r.artifact = a ∧ ∀ file ∈ r.file, file = s.localFile a := by
  rw [LoadedDescriptor.resolve_eq] at h
  cases hexists : fs.exists? (Layout.nested.filePath s.localRepository a) with
  | error e =>
    rw [hexists] at h
    cases h
  | ok present =>
    rw [hexists] at h
    obtain rfl := Except.ok.inj h
    refine ⟨rfl, fun file hfile => ?_⟩
    cases present with
    | false => cases hfile
    | true => exact (Option.some.inj hfile).symm

/-- A location that was copied is copied once more. -/
theorem addLocation_redoes (hh : host.Successor host' last) (hs : fs.Sound)
    (hwritten : written ⊆ documents) (hnow : Metadata.OnLines host.now)
    (houtbound : s.Outbound fs.workingDirectory)
    (hartifact : ∀ a ∈ Location.artifact? location, a.Lasting)
    (h : (s.addLocation host location).run fs = (item, fs'))
    (hok : ∀ failure, item.outcome ≠ .failed failure) :
    Redoes last written (s.addLocation host' location).run item
      (s.writes host.now fs.workingDirectory (.location location)) fs fs' := by
  rw [addLocation_run] at h
  split at h
  next hskip =>
    obtain ⟨rfl, rfl⟩ := Prod.mk.inj h
    have hnone : Location.artifact? location = none := by
      rw [Bool.and_eq_true, Bool.not_eq_true', Location.isMvnUrl, Option.isSome_eq_false_iff,
        Option.isNone_iff_eq_none] at hskip
      rw [Location.artifact?, hskip.1, Option.bind_none]
    rw [writes_location_of_none hnone]
    exact .done hs fun late => by rw [addLocation_run, if_pos hskip]
  next hskip =>
    split at h
    next =>
      obtain ⟨rfl, -⟩ := Prod.mk.inj h
      exact absurd rfl (hok _)
    next a ha =>
      split at h
      next =>
        obtain ⟨rfl, -⟩ := Prod.mk.inj h
        exact absurd rfl (hok _)
      next r hr =>
        obtain ⟨rfl, hfound⟩ := resolve_spec hr
        obtain ⟨path, hmaterialize, -⟩ := ofAction_ok h hok
        obtain ⟨-, source, copied, hsource, hcopy, -⟩ := Depot.materialize_steps hmaterialize
        have hfile : r.file = some (s.localFile r.artifact) := by
          rw [hsource, hfound source hsource]
        obtain ⟨bytes, hread, -⟩ := Disk.copy_stored hcopy
        rw [hfound source hsource] at hread
        have hadd := add_redoes hh hs hwritten hnow houtbound (hartifact _ ha) hfile h hok
        rw [writes_location ha]
        refine ⟨hadd.grown, hadd.sound, hadd.content, fun late hgrown hdocuments hready => ?_⟩
        obtain ⟨late', hone, hlate⟩ := hadd.redone late hgrown hdocuments hready
        obtain ⟨now, hreadNow, -⟩ := ((hadd.grown.trans hgrown).trans hready.shape.1).read hread
        refine ⟨late', ?_, hlate⟩
        have hresolve : late.resolve s.localRepository r.artifact =
            .ok ⟨r.artifact, some (s.localFile r.artifact)⟩ := resolve_of_read hreadNow
        have hr : (⟨r.artifact, some (s.localFile r.artifact)⟩ : ResolvedArtifact) = r := by
          rw [← hfile]
        rw [addLocation_run, if_neg hskip, ha]
        dsimp only
        rw [hresolve]
        dsimp only
        rw [hr, hone]

/-- A file that was copied is copied once more. -/
theorem copyFile_redoes {c : FileCopy} {path : Path} (hh : host.Successor host' last)
    (hs : fs.Sound) (hwritten : written ⊆ documents) (houtbound : s.Outbound fs.workingDirectory)
    (hc : c ∈ s.fileCopies) (h : s.depot.copyFile host c.source c.target fs = (.ok path, fs')) :
    Redoes last written (s.depot.copyFile host' c.source c.target) (.ok path)
      (s.writes host.now fs.workingDirectory (.file c)) fs fs' := by
  obtain ⟨_, middle, hcopy, hreturn⟩ := Disk.bind_eq_ok_iff.mp h
  obtain ⟨hpath, hmiddle⟩ := Prod.mk.inj hreturn
  subst hmiddle
  have hcopy := Disk.during_eq_ok_iff.mp hcopy
  have hone := copy_redoes hh hs (fun hmem => houtbound.document c hc (hwritten hmem)) hcopy
  have hlast : Redoes last written (pure (s.repository.join c.target) : Disk Path) (.ok path) []
      middle middle := .done hone.sound fun late => Prod.ext hpath rfl
  exact (hone.during (.copying c.source (s.repository.join c.target))).andThen hlast

/-- A task that did not fail is carried out once more. -/
theorem perform_redoes (hh : host.Successor host' last) (hs : fs.Sound)
    (hwritten : written ⊆ documents) (hnow : Metadata.OnLines host.now)
    (houtbound : s.Outbound fs.workingDirectory) (ht : s.Plans t)
    (hartifact : ∀ a ∈ t.artifact?, a.Lasting) (h : (s.perform host t).run fs = (item, fs'))
    (hok : ∀ failure, item.outcome ≠ .failed failure) :
    Redoes last written (s.perform host' t).run item
      (s.writes host.now fs.workingDirectory t) fs fs' := by
  cases t with
  | descriptor source => exact add_redoes hh hs hwritten hnow houtbound (hartifact _ rfl) ht.1 h hok
  | location location =>
    have hlocation : ∀ host, s.perform host (.location location) = s.addLocation host location :=
      fun _ => rfl
    rw [hlocation] at h ⊢
    exact addLocation_redoes hh hs hwritten hnow houtbound hartifact h hok
  | file copy =>
    obtain ⟨path, hcopied, rfl⟩ := ofAction_ok h hok
    exact ofAction_redoes (copyFile_redoes hh hs hwritten houtbound ht hcopied)

/-- A run in which nothing failed is carried out once more, task by task. -/
theorem mapM_perform_redoes (hh : host.Successor host' last) (hs : fs.Sound)
    (hwritten : written ⊆ documents) (hnow : Metadata.OnLines host.now)
    (houtbound : s.Outbound fs.workingDirectory) (ht : ∀ t ∈ tasks, s.Plans t)
    (hartifact : ∀ t ∈ tasks, ∀ a ∈ t.artifact?, a.Lasting)
    (h : (tasks.mapM (s.perform host)).run fs = (report, fs'))
    (hok : ∀ item ∈ report, ∀ failure, item.outcome ≠ .failed failure) :
    Redoes last written (tasks.mapM (s.perform host')).run report
      (tasks.flatMap (s.writes host.now fs.workingDirectory)) fs fs' := by
  induction tasks generalizing fs report with
  | nil =>
    obtain ⟨rfl, rfl⟩ := Prod.mk.inj h
    exact .done hs fun _ => rfl
  | cons t tasks ih =>
    rw [Batch.mapM_run_cons] at h
    rcases hhead : (s.perform host t).run fs with ⟨item, middle⟩
    rw [hhead] at h
    rcases htail : (tasks.mapM (s.perform host)).run middle with ⟨items, after⟩
    rw [htail] at h
    obtain ⟨rfl, rfl⟩ := Prod.mk.inj h
    rw [List.forall_mem_cons] at ht hartifact hok
    have hfirst := perform_redoes hh hs hwritten hnow houtbound ht.1 hartifact.1 hhead hok.1
    have hrest :=
      ih hfirst.sound (hfirst.grown.workingDirectory ▸ houtbound) ht.2 hartifact.2 htail hok.2
    rw [hfirst.grown.workingDirectory] at hrest
    rw [List.flatMap_cons]
    refine hfirst.seq hrest fun late middle late' _ hone _ htwo => ?_
    rw [Batch.mapM_run_cons, hone, htwo]

end Settings
end FeatureDepot
