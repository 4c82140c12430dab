import FeatureDepot.Metadata.Store
import FeatureDepot.Proofs.Disk
import FeatureDepot.Proofs.FileSystem.Changes

/-! Files that are written as a whole. Where writing succeeds the file holds the new content and
nothing but its directories is new; where it fails, all that can be left behind is the temporary
file. -/
namespace FeatureDepot

namespace FileSystem

variable {fs fs' fs'' : FileSystem} {p : Path} {q : Place} {content : Bytes}
  {new : Set (Place × Entry)}

/-- From one file system to another, a content was stored at a path, and nothing but `new` is new
besides. -/
structure Stored (p : Path) (content : Bytes) (new : Set (Place × Entry)) (fs fs' : FileSystem) :
    Prop where
  changes : Changes {fs.place p} new fs fs'
  read : fs'.read p = .ok content
  leaf : ∃ name, p.leaf? = some name

theorem Stored.get? (h : Stored p content new fs fs') :
    fs'.get? (fs.place p) = some (.file content) := by
  rw [← h.changes.place_eq, get?_of_read h.read]

theorem put_put (fs : FileSystem) (q : Place) (first second : Entry) :
    (fs.put q first).put q second = fs.put q second := by
  simp [put]

theorem take_put (fs : FileSystem) (q : Place) (entry : Entry) :
    (fs.put q entry).take q = fs.take q := by
  simp [put, take]

/-- A new file that is moved over another one is gone where it was. -/
theorem stored_of_moveFile (hne : q ≠ []) (hnone : fs.get? q = none)
    (h : (fs.put q (.file content)).moveFile q content p = .ok fs') :
    Stored p content ∅ fs fs' := by
  obtain ⟨directory, name, hnames, hsize, hplace, hmoved⟩ := moveFile_spec h
  have hwhere : fs.place p = directory ++ [name] := hnames.place_eq
  rw [← hwhere] at hplace hmoved
  have hplacene : fs.place p ≠ [] := by simp [hwhere]
  have hget : ∀ r, fs'.get? r = if r = fs.place p then some (.file content) else fs.get? r := by
    intro r
    rw [hmoved, get?_put _ _ _ hplacene, get?_take _ _ hne, get?_put _ _ _ hne]
    by_cases hr : r = q
    · simp [hr, hnone]
    · simp [hr]
  have hfile : fs'.get? (fs.place p) = some (.file content) := by rw [hget, if_pos rfl]
  have hdirectory : fs.get? (fs.place p) ≠ some .directory := by
    rw [get?_put _ _ _ hne] at hplace
    by_cases hq : fs.place p = q
    · simp [hq, hnone]
    · rwa [if_neg hq] at hplace
  have hnames' : fs'.Names p directory name := by
    refine hnames.mono (by rw [hmoved]; rfl) fun r hr => ?_
    rw [get?_put _ _ _ hne] at hr
    rw [hget]
    split at hr
    next => cases hr
    next =>
      have hother : r ≠ fs.place p := by
        rintro rfl
        exact hdirectory hr
      rw [if_neg hother, hr]
  refine ⟨⟨by rw [hmoved]; rfl, fun r => ?_⟩, ?_, name, hnames.leaf?⟩
  · by_cases hr : r = fs.place p
    · exact .inr (.inl ⟨hr, hr ▸ hdirectory, content, hr ▸ hfile⟩)
    · exact .inl (by rw [hget, if_neg hr])
  · refine read_eq_ok_iff.mpr ⟨fs.place p, ?_, hfile⟩
    rw [hnames'.locate_eq, child_eq_ok_iff, hfile]
    exact ⟨hsize, hwhere, rfl⟩

/-- Making the directories for a file comes before storing it. -/
theorem Stored.behind (h : Stored p content ∅ fs' fs'') (hroom : Changes ∅ new fs fs') :
    Stored p content new fs fs'' := by
  have hchanges := h.changes
  rw [hroom.place_eq] at hchanges
  exact ⟨(hroom.mono (Set.empty_subset _) subset_rfl).trans
    (hchanges.mono subset_rfl (Set.empty_subset _)), h.read, h.leaf⟩

end FileSystem

namespace Disk
open FileSystem

variable {host : Host} {p : Path} {pieces : List (Except Cause Bytes)} {fs fs' : FileSystem}

theorem giveUp_ne_ok (temporary : Path) (cause : Cause) :
    giveUp temporary cause fs ≠ (.ok (), fs') := by
  rw [giveUp_eq]
  intro h
  split at h <;> cases h

theorem replace_stored (h : replace host p pieces fs = (.ok (), fs')) :
    ∃ bytes, content pieces = .ok bytes ∧ Stored p bytes ∅ fs fs' := by
  rw [replace_eq] at h
  split at h
  next => exact absurd h (giveUp_ne_ok _ _)
  next made q hcreate =>
    obtain ⟨directory, name, -, -, hq, hnone, rfl⟩ := createFile_spec hcreate
    split at h
    next => exact absurd h (giveUp_ne_ok _ _)
    next bytes hbytes =>
      split at h
      next moved hmove =>
        obtain rfl := (Prod.mk.inj h).2
        rw [put_put] at hmove
        exact ⟨bytes, hbytes, stored_of_moveFile (by simp [hq]) hnone hmove⟩
      next => cases h

theorem makeRoom_changes (p : Path) (fs : FileSystem) :
    Changes ∅ (rooms fs.workingDirectory p) fs (makeRoom p fs).2 := by
  rw [makeRoom_eq]
  cases hp : p.parent? with
  | none => exact .refl fs
  | some directory =>
    refine (makeDirectories_changes fs directory).mono subset_rfl ?_
    rintro x ⟨hx, hplace⟩
    exact ⟨hx, directory, hp, hplace⟩

/-- What is read from a source in one piece. -/
theorem read_of_openFile {source : Path} {opened : List (Except IoError Bytes)} {bytes : Bytes}
    (h : fs.openFile source = .ok opened)
    (hbytes : content (opened.map (·.mapError .io)) = .ok bytes) :
    fs.read source = .ok bytes := by
  unfold openFile at h
  obtain ⟨q, hlocate, h⟩ := Batch.bind_eq_ok_iff.mp h
  refine read_eq_ok_iff.mpr ⟨q, hlocate, ?_⟩
  split at h
  next found hfound =>
    obtain rfl := Except.ok.inj h
    rw [List.map_singleton] at hbytes
    rw [hfound, Except.ok.inj ((content_singleton found).symm.trans hbytes)]
  next =>
    obtain rfl := Except.ok.inj h
    cases hbytes

theorem copy_stored {source : Path} (h : copy host source p fs = (.ok (), fs')) :
    ∃ bytes, fs.read source = .ok bytes ∧ Stored p bytes (rooms fs.workingDirectory p) fs fs' := by
  obtain ⟨opened, middle, hlook, h⟩ := bind_eq_ok_iff.mp h
  obtain ⟨hopen, rfl⟩ := look_eq_ok_iff.mp hlook
  obtain ⟨_, made, hmade, h⟩ := bind_eq_ok_iff.mp h
  obtain ⟨bytes, hbytes, hstored⟩ := replace_stored h
  have hroom := makeRoom_changes p fs
  rw [hmade] at hroom
  exact ⟨bytes, read_of_openFile hopen hbytes, hstored.behind hroom⟩

end Disk

namespace Metadata
open FileSystem

variable {host : Host} {p : Path} {m : Metadata} {fs fs' : FileSystem}

lemma write_stored (h : write host p m fs = (.ok (), fs')) :
    Stored p (Bytes.encode m.render) (rooms fs.workingDirectory p) fs fs' := by
  obtain ⟨_, made, hmade, h⟩ := Disk.bind_eq_ok_iff.mp h
  obtain ⟨bytes, hbytes, hstored⟩ := Disk.replace_stored h
  have hroom := Disk.makeRoom_changes p fs
  rw [hmade] at hroom
  rw [Disk.content_singleton] at hbytes
  obtain rfl := Except.ok.inj hbytes
  exact hstored.behind hroom

theorem read_eq (p : Path) (fs : FileSystem) :
    read p fs = ((load fs p).mapError fun cause => { cause }, fs) := by
  have hget : (get : Disk FileSystem) fs = (.ok fs, fs) := rfl
  unfold read
  rw [Disk.bind_eq, hget]
  cases h : load fs p <;> simp only [h] <;> rfl

/-- A document is changed from what it was to what is made of it. -/
theorem update_stored {change : Metadata → Metadata} (h : update host p change fs = (.ok (), fs')) :
    ∃ before, load fs p = .ok before ∧
      Stored p (Bytes.encode (change (before.getD {})).render)
        (rooms fs.workingDirectory p) fs fs' := by
  obtain ⟨before, middle, hread, h⟩ := Disk.bind_eq_ok_iff.mp h
  rw [Disk.during_eq_ok_iff, read_eq] at hread
  obtain ⟨hload, rfl⟩ := Prod.mk.inj hread
  refine ⟨before, ?_, write_stored (Disk.during_eq_ok_iff.mp h)⟩
  cases hbefore : load fs p with
  | error cause =>
    rw [hbefore] at hload
    cases hload
  | ok stored =>
    rw [hbefore] at hload
    exact congrArg _ (Except.ok.inj hload)

end Metadata
end FeatureDepot
