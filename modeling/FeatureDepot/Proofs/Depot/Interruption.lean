import FeatureDepot.Proofs.Depot.Drawing

/-! What is left when materializing an artifact fails on its way. Files are replaced as a whole and
checksums come last, so a checksum file always holds the checksum of what its file holds now or of
what it held before; only between these steps can it be the latter. -/
namespace FeatureDepot
open FileSystem FeatureDepot.Path

namespace Disk

variable {α β : Type} {P M Q : FileSystem → Prop} {x : Disk α} {host : Host} {p source : Path}
  {w : Place} {files : Set Place} {fs fs' : FileSystem} {failure : Failure}
  {pieces : List (Except Cause Bytes)}

/-- Whatever becomes of an action, it leads from one condition to another. -/
def Leads (P Q : FileSystem → Prop) (x : Disk α) : Prop := ∀ fs, P fs → Q (x fs).2

namespace Leads

lemma pure (a : α) : Leads P P (return a : Disk α) := fun _ h => h

/-- If the first action fails, what it leads to is the end. -/
theorem bind {f : α → Disk β} (hx : Leads P M x) (hend : ∀ fs, M fs → Q fs)
    (hf : ∀ a, Leads M Q (f a)) :
    Leads P Q (x >>= f) := by
  intro fs h
  have hfirst := hx fs h
  rw [bind_eq]
  rcases hresult : x fs with ⟨failure | a, middle⟩
  · rw [hresult] at hfirst
    exact hend middle hfirst
  · rw [hresult] at hfirst
    exact hf a middle hfirst

lemma during {activity : Activity} (h : Leads P Q x) : Leads P Q (during activity x) := by
  intro fs hfs
  rw [during_eq]
  exact h fs hfs

end Leads

/-- Directories, and temporary files wherever they lie. -/
def litter : Set (Place × Entry) :=
  {x | x.2 = .directory ∨ ∃ name, x.1.getLast? = some (name ++ ".writing".toList)}

/-- What has the name of a temporary file, wherever it lies. -/
def temporaries : Set (Place × Entry) :=
  {x | ∃ name, x.1.getLast? = some (name ++ ".writing".toList)}

lemma temporaries_subset_litter : temporaries ⊆ litter := fun _ hx => .inr hx

theorem rooms_subset_litter (w : Place) (p : Path) : rooms w p ⊆ litter := fun _ hx => .inl hx.1

theorem temporary_subset_temporaries (hfresh : host.Fresh) (fs : FileSystem) (p : Path) :
    {x | x.1 = fs.place (temporary host fs p)} ⊆ temporaries := by
  intro x hx
  have hplace : x.1 = (temporary host fs p).place fs.workingDirectory := hx
  have hlast := getLast?_place_temporary (w := fs.workingDirectory) (hfresh fs p).1
  exact ⟨'.' :: (p.fileName?.getD "").toList ++ '.' :: (host.tag fs p).toList,
    by rw [hplace, hlast, temporaryName]⟩

lemma temporary_subset_litter (hfresh : host.Fresh) (fs : FileSystem) (p : Path) :
    {x | x.1 = fs.place (temporary host fs p)} ⊆ litter :=
  (temporary_subset_temporaries hfresh fs p).trans temporaries_subset_litter

lemma replace_litter (hfresh : host.Fresh) (p : Path) (pieces : List (Except Cause Bytes)) :
    Within w {p.place w} litter (replace host p pieces) := by
  rintro fs rfl
  exact (replace_changes hfresh p pieces fs).mono subset_rfl (temporary_subset_litter hfresh fs p)

lemma makeRoom_litter (p : Path) : Within w files litter (makeRoom p) := by
  rintro fs rfl
  exact (makeRoom_changes p fs).mono (Set.empty_subset _) (rooms_subset_litter _ p)

/-- A file that could not be copied is what it was. -/
theorem copy_failed (hfresh : host.Fresh) (h : copy host source p fs = (.error failure, fs')) :
    Changes ∅ litter fs fs' := by
  unfold copy at h
  rcases bind_eq_error_iff.mp h with hlook | ⟨opened, middle, hlook, h⟩
  · rw [look_eq] at hlook
    obtain rfl := (Prod.mk.inj hlook).2
    exact .refl fs
  · obtain ⟨-, rfl⟩ := look_eq_ok_iff.mp hlook
    have hroom : Changes ∅ litter fs (makeRoom p fs).2 := makeRoom_litter p fs rfl
    rcases bind_eq_error_iff.mp h with hmade | ⟨_, made, hmade, h⟩
    · rwa [hmade] at hroom
    · rw [hmade] at hroom
      exact hroom.trans
        ((replace_failed hfresh h).mono subset_rfl (temporary_subset_litter hfresh made p))

end Disk

theorem Metadata.update_litter {host : Host} (w : Place) (hfresh : host.Fresh) (p : Path)
    (change : Metadata → Metadata) :
    Disk.Within w {p.place w} Disk.litter (update host p change) := by
  have hread : Disk.Within w {p.place w} Disk.litter (read p) := by
    intro fs _
    rw [read_eq]
    exact .refl fs
  have hwrite : ∀ m : Metadata, Disk.Within w {p.place w} Disk.litter (write host p m) := fun m =>
    (Disk.makeRoom_litter p).bind fun _ => Disk.replace_litter hfresh p _
  exact hread.during.bind fun m => (hwrite _).during

namespace ChecksumFile
open Disk

variable {host : Host} {f g : Path} {kind : ChecksumKind} {text content : Bytes}
  {fs fs' : FileSystem} {w : Place} {files : Set Place} {new : Set (Place × Entry)}

/-- A text is the checksum of what a file holds. -/
def Correct (fs : FileSystem) (f : Path) (kind : ChecksumKind) (text : Bytes) : Prop :=
  ∃ content, fs.get? (fs.place f) = some (.file content) ∧
  text = Bytes.encode (kind.checksum content)

instance (fs : FileSystem) (f : Path) (kind : ChecksumKind) (text : Bytes) :
    Decidable (Correct fs f kind text) :=
  match h : fs.get? (fs.place f) with
  | some (.file content) =>
    decidable_of_iff (text = Bytes.encode (kind.checksum content)) (by simp [Correct, h])
  | some .directory => isFalse (by simp [Correct, h])
  | none => isFalse (by simp [Correct, h])

/-- Those checksum files of a file that there are hold the checksums of what it holds. -/
def Matching (fs : FileSystem) (f : Path) : Prop :=
  ∀ kind text, fs.get? (fs.place (path f kind)) = some (.file text) → Correct fs f kind text

lemma matching_iff : Matching fs f ↔ ∀ kind ∈ ChecksumKind.all,
    (fs.get? (fs.place (path f kind))).all fun
      | .file text => decide (Correct fs f kind text)
      | .directory => true := by
  have hall : ∀ kind, kind ∈ ChecksumKind.all := fun kind => by cases kind <;> decide
  unfold Matching
  refine forall_congr' fun kind => ?_
  rcases fs.get? (fs.place (path f kind)) with - | ⟨text⟩ | - <;> simp [hall]

instance (fs : FileSystem) (f : Path) : Decidable (Matching fs f) :=
  decidable_of_iff' _ matching_iff

/-- A checksum file has a name, even behind a path that has none. -/
theorem exists_leaf?_path (f : Path) (kind : ChecksumKind) :
    ∃ s, (path f kind).leaf? = some (s ++ kind.suffix) := by
  obtain ⟨front, s, hf⟩ : ∃ front s, f.segments = front ++ [s] := by
    obtain ⟨front, s, h⟩ :=
      (List.eq_nil_or_concat f.segments).resolve_left (List.splitOn_ne_nil _ _)
    exact ⟨front, s, by rw [h, List.concat_eq_append]⟩
  have hslash : '/' ∉ s := not_mem_of_mem_segments (p := f) (hf ▸ List.mem_concat_self)
  have hsegments : (path f kind).segments = front ++ [s ++ kind.suffix] := by
    unfold path
    rw [segments_extend hf (by rw [kind.toList_suffix]; exact kind.not_mem_suffix),
      kind.toList_suffix]
  have hlong : 4 ≤ (s ++ kind.suffix).length := by
    cases kind <;> simp [ChecksumKind.suffix, ChecksumKind.ending]
  refine ⟨s, leaf?_eq_some_iff.mpr ⟨isName_of_ne ?_ ?_ ?_ ?_, front, hsegments⟩⟩
  · simp [hslash, kind.not_mem_suffix]
  all_goals
    intro h
    simp [h] at hlong

/-- Nothing that is left behind is a checksum file. -/
theorem not_mem_litter (f : Path) (kind : ChecksumKind) (text : Bytes) :
    ((path f kind).place w, .file text) ∉ litter := by
  obtain ⟨s, hs⟩ := exists_leaf?_path f kind
  rintro (h | ⟨name, h⟩)
  · cases h
  · rw [getLast?_place hs] at h
    have hlast := congrArg List.getLast? (Option.some.inj h)
    cases kind <;> simp [ChecksumKind.suffix, ChecksumKind.ending] at hlast

/-- A checksum file that was not written was there before. -/
theorem get?_path_of_changes (h : Changes files litter fs fs')
    (hfiles : fs.place (path f kind) ∉ files)
    (htext : fs'.get? (fs'.place (path f kind)) = some (.file text)) :
    fs.get? (fs.place (path f kind)) = some (.file text) := by
  rw [h.place_eq] at htext
  rcases h.get? (fs.place (path f kind)) with heq | ⟨hmem, -⟩ | ⟨-, entry, hentry, hlitter⟩
  · rw [← heq, htext]
  · exact absurd hmem hfiles
  · obtain rfl := Option.some.inj (hentry.symm.trans htext)
    exact absurd hlitter (not_mem_litter f kind text)

lemma Correct.mono (h : Correct fs f kind text) (hchanges : Changes files new fs fs')
    (hf : fs.place f ∉ files) :
    Correct fs' f kind text := by
  obtain ⟨content, hcontent, htext⟩ := h
  exact ⟨content, by rw [hchanges.place_eq, hchanges.get?_of_not_mem hf hcontent], htext⟩

lemma Matching.of_litter (h : Matching fs f) (hchanges : Changes ∅ litter fs fs') :
    Matching fs' f :=
  fun kind text htext =>
    (h kind text (get?_path_of_changes hchanges (Set.notMem_empty _) htext)).mono hchanges
      (Set.notMem_empty _)

lemma UpToDate.matching (h : UpToDate fs f) : Matching fs f := by
  obtain ⟨content, hread, hsums⟩ := h
  intro kind text htext
  rw [get?_of_read (hsums kind)] at htext
  exact ⟨content, get?_of_read hread, (Entry.file.inj (Option.some.inj htext)).symm⟩

end ChecksumFile

namespace Depot
open Disk ChecksumFile

variable {host : Host} {d : Depot} {r : ResolvedArtifact} {a : Artifact} {file f g : Path}
  {s : Segment} {before fs fs' : FileSystem} {content : Bytes} {kind : ChecksumKind} {w : Place}
  {files : Set Place} {new : Set (Place × Entry)} {failure : Failure}

/-- None of the files is a checksum file of one of them. -/
theorem place_ne_path (hfile : file.leaf? = some s)
    (hsums : ∀ kind : ChecksumKind, s ≠ metadataSegment ++ kind.suffix) (hf : f ∈ described file)
    (hg : g ∈ described file) (kind : ChecksumKind) : f.place w ≠ (path g kind).place w := by
  obtain ⟨t, ht, hnamed⟩ := leaf?_of_mem_described hfile f hf
  obtain ⟨u, hu, hchecked⟩ := leaf?_of_mem_described hfile g hg
  refine place_ne_of_leaf?_ne ht (leaf?_path hu kind) ?_
  rcases hnamed with rfl | rfl
  · rcases hchecked with rfl | rfl
    · exact (kind.append_suffix_ne_self u).symm
    · exact hsums kind
  · exact (append_suffix_ne_metadataSegment u kind).symm

/-- Every checksum file is that of what its file holds now, or as it was before. -/
def Accounted (before : FileSystem) (file : Path) (fs : FileSystem) : Prop :=
  ∀ f ∈ described file, ∀ kind text,
  fs.get? (fs.place (path f kind)) = some (.file text) →
    Correct fs f kind text ∨ before.get? (before.place (path f kind)) = some (.file text)

/-- Before any checksum is written, all of them are as they were. -/
theorem accounted_of_changes (h : Changes files litter before fs)
    (hfiles : ∀ f ∈ described file, ∀ kind, before.place (path f kind) ∉ files) :
    Accounted before file fs :=
  fun f hf kind _ htext => .inr (get?_path_of_changes h (hfiles f hf kind) htext)

lemma Accounted.mono (h : Accounted before file fs) (hchanges : Changes files litter fs fs')
    (hfiles : ∀ f ∈ described file, fs.place f ∉ files)
    (hsums : ∀ f ∈ described file, ∀ kind text, fs.place (path f kind) ∈ files →
      fs'.get? (fs'.place (path f kind)) = some (.file text) → Correct fs' f kind text) :
    Accounted before file fs' := by
  intro f hf kind text htext
  by_cases hmem : fs.place (path f kind) ∈ files
  · exact .inl (hsums f hf kind text hmem htext)
  · exact (h f hf kind text (get?_path_of_changes hchanges hmem htext)).imp_left fun h =>
      h.mono hchanges (hfiles f hf)

/-- Writing one checksum of a file, or failing to. -/
theorem Accounted.replace (h : Accounted before file fs) (hfresh : host.Fresh)
    (hfile : file.leaf? = some s)
    (hsums : ∀ kind : ChecksumKind, s ≠ metadataSegment ++ kind.suffix) (hg : g ∈ described file)
    (hcontent : fs.get? (fs.place g) = some (.file content)) (kind : ChecksumKind) :
    Accounted before file
      (replace host (path g kind) [.ok (Bytes.encode (kind.checksum content))] fs).2 := by
  rcases hrun :
      Disk.replace host (path g kind) [.ok (Bytes.encode (kind.checksum content))] fs with
    ⟨failure | _, fs'⟩
  · have hchanges :=
      (replace_failed hfresh hrun).mono subset_rfl (temporary_subset_litter hfresh fs _)
    exact h.mono hchanges (fun _ _ => Set.notMem_empty _) fun _ _ _ _ hmem =>
      absurd hmem (Set.notMem_empty _)
  · obtain ⟨_, hbytes, hstored⟩ := replace_stored hrun
    obtain rfl := Except.ok.inj ((content_singleton _).symm.trans hbytes)
    have hkept := hstored.changes.get?_of_not_mem (place_ne_path hfile hsums hg hg kind) hcontent
    refine h.mono (hstored.changes.mono subset_rfl (Set.empty_subset _))
      (fun f hf => place_ne_path hfile hsums hf hg kind) ?_
    -- A checksum file of two files is that of one file under two paths.
    intro f hf kind' text hsame htext
    obtain ⟨t, ht, -⟩ := leaf?_of_mem_described hfile f hf
    obtain ⟨u, hu, -⟩ := leaf?_of_mem_described hfile g hg
    obtain ⟨hplace, rfl⟩ := place_path_inj ht hu hsame
    rw [hstored.changes.place_eq, Set.mem_singleton_iff.mp hsame, hstored.get?] at htext
    refine ⟨content, ?_, (Entry.file.inj (Option.some.inj htext)).symm⟩
    rw [hstored.changes.place_eq]
    exact (congrArg fs'.get? hplace).trans hkept

/-- Writing the checksums of a file, whatever becomes of it. -/
theorem writeAll_leads (hfresh : host.Fresh) (hfile : file.leaf? = some s)
    (hsums : ∀ kind : ChecksumKind, s ≠ metadataSegment ++ kind.suffix) (hg : g ∈ described file) :
    Leads (Accounted before file) (Accounted before file) (writeAll host g) := by
  have hsum : ∀ content kind,
      Leads (fun fs => Accounted before file fs ∧ fs.get? (fs.place g) = some (.file content))
        (fun fs => Accounted before file fs ∧ fs.get? (fs.place g) = some (.file content))
        (Disk.replace host (path g kind) [.ok (Bytes.encode (kind.checksum content))]) := by
    rintro content kind fs ⟨h, hcontent⟩
    refine ⟨h.replace hfresh hfile hsums hg hcontent kind, ?_⟩
    have hchanges :=
      replace_changes hfresh (path g kind) [.ok (Bytes.encode (kind.checksum content))] fs
    rw [hchanges.place_eq]
    exact hchanges.get?_of_not_mem (place_ne_path hfile hsums hg hg kind) hcontent
  intro fs h
  rw [writeAll_eq, bind_eq, look_eq]
  cases hread : fs.read g with
  | error e => exact h
  | ok content =>
    have hboth := (hsum content .md5).bind (fun _ h => h) fun _ =>
      (hsum content .sha1).bind (fun _ h => h) fun _ => Leads.pure [path g .md5, path g .sha1]
    exact (hboth fs ⟨h, get?_of_read hread⟩).1

/-- The places of a file and of its metadata documents. -/
def filePlaces (w : Place) (file : Path) : Set Place := {q | ∃ f ∈ described file, q = f.place w}

/-- Describing a copied file, whatever becomes of it: documents change before any checksum does. -/
theorem describe_leads (hfresh : host.Fresh) (a : Artifact) (hfile : file.leaf? = some s)
    (hsums : ∀ kind : ChecksumKind, s ≠ metadataSegment ++ kind.suffix) :
    Leads (Changes (filePlaces before.workingDirectory file) litter before) (Accounted before file)
      (describe host a file) := by
  have hupdate : ∀ g ∈ described file, ∀ change,
      Leads (Changes (filePlaces before.workingDirectory file) litter before)
        (Changes (filePlaces before.workingDirectory file) litter before)
        (Metadata.update host g change) := by
    intro g hg change fs h
    refine h.trans
      ((Metadata.update_litter fs.workingDirectory hfresh g change fs rfl).mono ?_ subset_rfl)
    rintro q rfl
    exact ⟨g, hg, h.place_eq g⟩
  have haccounted : ∀ fs, Changes (filePlaces before.workingDirectory file) litter before fs →
      Accounted before file fs := by
    refine fun fs h => accounted_of_changes h ?_
    rintro g hg kind ⟨f, hf, hplace⟩
    exact place_ne_path hfile hsums hf hg kind hplace.symm
  have hmem : file ∈ described file ∧ Layout.versionMetadata file ∈ described file ∧
      Layout.artifactMetadata file ∈ described file := by simp [described]
  have hcheck : ∀ g ∈ described file, Leads (Accounted before file) (Accounted before file)
      (Disk.during (.writingChecksums g) (writeAll host g)) :=
        fun g hg => (writeAll_leads hfresh hfile hsums hg).during
  have hchecks := (hcheck _ hmem.1).bind (fun _ h => h) fun _ =>
    (hcheck _ hmem.2.1).bind (fun _ h => h) fun _ =>
      (hcheck _ hmem.2.2).bind (fun _ h => h) fun _ => Leads.pure ()
  rw [describe_eq]
  exact (hupdate _ hmem.2.1 _).bind haccounted fun _ =>
    (hupdate _ hmem.2.2 _).bind haccounted fun _ => fun fs h => hchecks fs (haccounted fs h)

/-- A failure that happened when something else than copying was being done. -/
def BehindCopy (failure : Failure) : Prop :=
  ∃ activity rest, failure.activities = activity :: rest ∧
    ∀ source target, activity ≠ .copying source target

lemma describe_failed (h : describe host a file fs = (.error failure, fs')) :
    BehindCopy failure := by
  have hduring : ∀ {α : Type} {activity : Activity} {x : Disk α} {fs fs' : FileSystem},
      (∀ source target, activity ≠ .copying source target) →
      Disk.during activity x fs = (.error failure, fs') →
        BehindCopy failure := by
    intro α activity x fs fs' hne h
    obtain ⟨inner, -, rfl⟩ := during_eq_error_iff.mp h
    exact ⟨activity, inner.activities, rfl, hne⟩
  have hupdate : ∀ {g : Path} {change : Metadata → Metadata} {fs fs' : FileSystem},
      Metadata.update host g change fs = (.error failure, fs') → BehindCopy failure := by
    intro g change fs fs' h
    rcases bind_eq_error_iff.mp h with h | ⟨_, _, -, h⟩
    · exact hduring (by simp) h
    · exact hduring (by simp) h
  rw [describe_eq] at h
  rcases bind_eq_error_iff.mp h with h | ⟨_, _, -, h⟩
  · exact hupdate h
  rcases bind_eq_error_iff.mp h with h | ⟨_, _, -, h⟩
  · exact hupdate h
  rcases bind_eq_error_iff.mp h with h | ⟨_, _, -, h⟩
  · exact hduring (by simp) h
  rcases bind_eq_error_iff.mp h with h | ⟨_, _, -, h⟩
  · exact hduring (by simp) h
  rcases bind_eq_error_iff.mp h with h | ⟨_, _, -, h⟩
  · exact hduring (by simp) h
  · cases h

/-- Materializing ends before anything is replaced, or with its checksums accounted for. -/
theorem materialize_ends {outcome : Except Failure Path} (hfresh : host.Fresh)
    (hmetadata : d.generateMetadata = true)
    (hname : ∀ name ∈ (d.destination r.artifact).fileName?, name ≠ Layout.metadataName ∧
      ∀ kind : ChecksumKind, name ≠ Layout.metadataName ++ "." ++ kind.ending)
    (h : d.materialize host r fs = (outcome, fs')) :
    Changes ∅ litter fs fs' ∨
      Accounted fs (d.destination r.artifact) fs' ∧ ∀ failure, outcome = .error failure →
      BehindCopy failure := by
  rw [materialize_eq] at h
  cases hsource : r.file with
  | none =>
    rw [hsource] at h
    obtain rfl := (Prod.mk.inj h).2
    exact .inl (.refl fs)
  | some source =>
    rw [hsource] at h
    dsimp only at h
    rw [if_pos hmetadata, bind_eq] at h
    rcases hcopy : Disk.during (.copying source (d.destination r.artifact))
      (copy host source (d.destination r.artifact)) fs with ⟨failure | _, copied⟩
    · rw [hcopy] at h
      obtain rfl := (Prod.mk.inj h).2
      obtain ⟨_, hcopy, -⟩ := during_eq_error_iff.mp hcopy
      exact .inl (copy_failed hfresh hcopy)
    · rw [hcopy] at h
      dsimp only at h
      obtain ⟨_, -, hstored⟩ := copy_stored (during_eq_ok_iff.mp hcopy)
      obtain ⟨s, hleaf⟩ := hstored.leaf
      have hcopied : Changes (filePlaces fs.workingDirectory (d.destination r.artifact))
          litter fs copied := by
        refine hstored.changes.mono ?_ (rooms_subset_litter _ _)
        rintro q rfl
        exact ⟨d.destination r.artifact, by simp [described], rfl⟩
      have haccounted := describe_leads hfresh r.artifact hleaf
        (ne_metadataSegment_of_fileName? hname hleaf).2 copied hcopied
      rw [bind_eq] at h
      rcases hdescribe : describe host r.artifact (d.destination r.artifact) copied with
        ⟨failure | _, last⟩
      · rw [hdescribe] at h haccounted
        obtain ⟨rfl, rfl⟩ := Prod.mk.inj h
        refine .inr ⟨haccounted, fun _ hfailure => ?_⟩
        obtain rfl := Except.error.inj hfailure
        exact describe_failed hdescribe
      · rw [hdescribe] at h haccounted
        obtain ⟨rfl, rfl⟩ := Prod.mk.inj h
        exact .inr ⟨haccounted, fun _ hfailure => by cases hfailure⟩

/-- Whatever becomes of materializing an artifact whose checksum files match, each checksum file
that is there then is right for what its file holds, or it is as it was and was right for what its
file held. The latter is only so if it fails behind the copy: in all other cases the checksum files
match again. No name that is drawn for a temporary file is to be in use. -/
theorem materialize_checksums {outcome : Except Failure Path}
    (hunused : ∀ t ∈ d.draws host r fs, host.Avoids t.1 t.2)
    (hmetadata : d.generateMetadata = true)
    (hname : ∀ name ∈ (d.destination r.artifact).fileName?, name ≠ Layout.metadataName ∧
      ∀ kind : ChecksumKind, name ≠ Layout.metadataName ++ "." ++ kind.ending)
    (hmatching : ∀ f ∈ described (d.destination r.artifact), Matching fs f)
    (h : d.materialize host r fs = (outcome, fs')) :
    (∀ f ∈ described (d.destination r.artifact), ∀ kind text,
      fs'.get? (fs'.place (path f kind)) = some (.file text) → Correct fs' f kind text ∨
        fs.get? (fs.place (path f kind)) = some (.file text) ∧ Correct fs f kind text) ∧
    ((∀ failure, outcome = .error failure → failure.activities = [] ∨
        ∃ source, failure.activities = [.copying source (d.destination r.artifact)]) →
      ∀ f ∈ described (d.destination r.artifact), Matching fs' f) := by
  obtain ⟨careful, hfresh, h⟩ : ∃ careful : Host, careful.Fresh ∧ d.materialize careful r fs = _ :=
    ⟨host.careful, host.fresh_careful, (materialize_careful hunused).trans h⟩
  rcases materialize_ends hfresh hmetadata hname h with hlitter | ⟨haccounted, hfailed⟩
  · have hmatching' : ∀ f ∈ described (d.destination r.artifact), Matching fs' f :=
      fun f hf => (hmatching f hf).of_litter hlitter
    exact ⟨fun f hf kind text htext => .inl (hmatching' f hf kind text htext), fun _ => hmatching'⟩
  · refine ⟨fun f hf kind text htext => ?_, fun hearly => ?_⟩
    · exact (haccounted f hf kind text htext).imp_right fun hold =>
        ⟨hold, hmatching f hf kind text hold⟩
    · cases outcome with
      | ok path =>
        obtain ⟨rfl, -, hups, -⟩ := materialize_upToDate hmetadata hname h
        exact fun f hf => (hups f hf).matching
      | error failure =>
        obtain ⟨activity, rest, hactivities, hne⟩ := hfailed failure rfl
        rcases hearly failure rfl with hnone | ⟨source, hcopying⟩
        · rw [hactivities] at hnone
          cases hnone
        · rw [hactivities] at hcopying
          exact absurd (List.cons.inj hcopying).1 (hne _ _)

/-- A depot that holds an older file of an artifact with its checksum, and a document of its version
that is none. -/
def spoilt : FileSystem where
  workingDirectory := []
  entries := [(["source".toList], .file [2]), (["depot".toList], .directory),
    (["depot".toList, "g".toList], .directory),
    (["depot".toList, "g".toList, "a".toList], .directory),
    (["depot".toList, "g".toList, "a".toList, "1".toList], .directory),
    (["depot".toList, "g".toList, "a".toList, "1".toList, "a-1.jar".toList], .file [1]),
    (["depot".toList, "g".toList, "a".toList, "1".toList, "a-1.jar.md5".toList],
      .file (Bytes.encode "55a54008ad1ba589aa210d2629c1df41")),
    (["depot".toList, "g".toList, "a".toList, "1".toList, "maven-metadata.xml".toList],
      .file (Bytes.encode "none"))]

/-- What becomes of the artifact there. -/
def spoiltRun : Except Failure Path × FileSystem :=
  oneDepot.materialize plainHost oneArtifact spoilt

theorem avoids_spoiltRun :
    ∀ t ∈ oneDepot.draws plainHost oneArtifact spoilt, plainHost.Avoids t.1 t.2 := by decide +kernel

/-- Checksum files match, the new content is copied, the document cannot be read, and the old
checksum stays. -/
theorem not_matching_spoiltRun :
    (∀ f ∈ described (oneDepot.destination oneArtifact.artifact), Matching spoilt f) ∧
    spoiltRun.1.toOption = none ∧
    ¬ Matching spoiltRun.2 (oneDepot.destination oneArtifact.artifact) := by
  decide +kernel

theorem materialize_checksums_spoiltRun :
    ∃ text, spoiltRun.2.get? (spoiltRun.2.place ⟨"depot/g/a/1/a-1.jar.md5"⟩) = some (.file text) ∧
      ¬ Correct spoiltRun.2 ⟨"depot/g/a/1/a-1.jar"⟩ .md5 text ∧
      Correct spoilt ⟨"depot/g/a/1/a-1.jar"⟩ .md5 text := by
  have hfile : oneDepot.destination oneArtifact.artifact = ⟨"depot/g/a/1/a-1.jar"⟩ := by
    decide +kernel
  have hpath : path ⟨"depot/g/a/1/a-1.jar"⟩ .md5 = ⟨"depot/g/a/1/a-1.jar.md5"⟩ := by decide +kernel
  have hname : ∀ name ∈ (oneDepot.destination oneArtifact.artifact).fileName?,
      name ≠ Layout.metadataName ∧
      ∀ kind : ChecksumKind, name ≠ Layout.metadataName ++ "." ++ kind.ending := by
    have hlast : (oneDepot.destination oneArtifact.artifact).fileName? = some "a-1.jar" := by
      decide +kernel
    rw [hlast]
    rintro _ ⟨⟩
    exact ⟨by decide, fun kind => by cases kind <;> decide⟩
  have hmatching : ∀ f ∈ described (oneDepot.destination oneArtifact.artifact),
      Matching spoilt f := by decide +kernel
  have htext : spoiltRun.2.get? (spoiltRun.2.place ⟨"depot/g/a/1/a-1.jar.md5"⟩) =
      some (.file (Bytes.encode "55a54008ad1ba589aa210d2629c1df41")) := by decide +kernel
  have hwrong : ¬ Correct spoiltRun.2 ⟨"depot/g/a/1/a-1.jar"⟩ .md5
      (Bytes.encode "55a54008ad1ba589aa210d2629c1df41") := by
    decide +kernel
  have hrun : oneDepot.materialize plainHost oneArtifact spoilt = (spoiltRun.1, spoiltRun.2) :=
    (Prod.eta spoiltRun).symm
  have hsums := (materialize_checksums avoids_spoiltRun rfl hname hmatching hrun).1
  rw [hfile] at hsums
  rw [← hpath] at htext
  have hold := hsums ⟨"depot/g/a/1/a-1.jar"⟩ List.mem_cons_self .md5 _ htext
  rw [hpath] at htext
  exact ⟨_, htext, hwrong, (hold.resolve_left hwrong).2⟩

end Depot
end FeatureDepot
