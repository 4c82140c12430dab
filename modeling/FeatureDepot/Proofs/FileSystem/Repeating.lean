import FeatureDepot.Proofs.FileSystem.Arrival
import FeatureDepot.Proofs.FileSystem.Writes

/-! Doing once more what has been done. An action that has stored files can be repeated on any later
file system in which there are directories and files where it left them, whatever the files hold by
then. -/
namespace FeatureDepot
open FeatureDepot.Path FileSystem

namespace FileSystem

variable {fs fs' fs'' late : FileSystem} {p directory : Path} {q d : Place} {name : Segment}
  {bytes : Bytes} {files : Set Place} {new : Set (Place × Entry)}

theorem content_eq_some_iff : fs.content q = some bytes ↔ fs.get? q = some (.file bytes) := by
  unfold content
  rcases fs.get? q with - | - | - <;> simp

lemma content_eq_none_iff :
    fs.content q = none ↔ fs.get? q = none ∨ fs.get? q = some .directory := by
  unfold content
  rcases fs.get? q with - | - | - <;> simp

lemma content_of_get? (h : fs'.get? q = fs.get? q) : fs'.content q = fs.content q := by
  unfold content
  rw [h]

/-- From one file system to another, directories stay directories and files stay files, whatever
they hold. -/
structure Grown (fs fs' : FileSystem) : Prop where
  workingDirectory : fs'.workingDirectory = fs.workingDirectory
  directory (q : Place) : fs.get? q = some .directory → fs'.get? q = some .directory
  file (q : Place) : (fs.content q).isSome → (fs'.content q).isSome

/-- Two file systems with directories and files at the same places. -/
def SameShape (fs fs' : FileSystem) : Prop := fs.Grown fs' ∧ fs'.Grown fs

namespace Grown

theorem refl (fs : FileSystem) : fs.Grown fs := ⟨rfl, fun _ => id, fun _ => id⟩

theorem trans (h : fs.Grown fs') (h' : fs'.Grown fs'') : fs.Grown fs'' :=
  ⟨h'.workingDirectory.trans h.workingDirectory, fun q hq => h'.directory q (h.directory q hq),
    fun q hq => h'.file q (h.file q hq)⟩

theorem place_eq (h : fs.Grown fs') (p : Path) : fs'.place p = fs.place p := by
  unfold place
  rw [h.workingDirectory]

theorem isSome (h : fs.Grown fs') (hq : (fs.get? q).isSome) : (fs'.get? q).isSome := by
  obtain ⟨entry, hentry⟩ := Option.isSome_iff_exists.mp hq
  cases entry with
  | directory => rw [h.directory q hentry, Option.isSome_some]
  | file bytes =>
    obtain ⟨other, hother⟩ := Option.isSome_iff_exists.mp
      (h.file q (by rw [content_eq_some_iff.mpr hentry, Option.isSome_some]))
    rw [content_eq_some_iff.mp hother, Option.isSome_some]

theorem reaches (h : fs.Grown fs') (hp : fs.Reaches p d) : fs'.Reaches p d := by
  obtain ⟨hwalk, hdirectory⟩ := hp
  refine ⟨?_, h.directory d hdirectory⟩
  rw [base_congr h.workingDirectory]
  exact walk_of_isSome h.directory hwalk (by rw [h.directory d hdirectory, Option.isSome_some])

theorem locate (h : fs.Grown fs') (hp : fs.locate p = .ok q) (hq : (fs.get? q).isSome) :
    fs'.locate p = .ok q :=
  locate_of_isSome h.workingDirectory h.directory hp (h.isSome hq)

/-- A file that could be read can be read, whatever it holds by now. -/
theorem read (h : fs.Grown fs') (hp : fs.read p = .ok bytes) :
    ∃ now, fs'.read p = .ok now ∧ fs'.content (fs.place p) = some now := by
  obtain ⟨q, hlocate, hfile⟩ := read_eq_ok_iff.mp hp
  obtain rfl := place_of_locate hlocate
  obtain ⟨now, hnow⟩ := Option.isSome_iff_exists.mp
    (h.file _ (by rw [content_eq_some_iff.mpr hfile, Option.isSome_some]))
  refine ⟨now, read_eq_ok_iff.mpr ⟨_, h.locate hlocate ?_, content_eq_some_iff.mp hnow⟩, hnow⟩
  rw [hfile, Option.isSome_some]

end Grown

theorem Changes.grown (h : Changes files new fs fs') : fs.Grown fs' := by
  refine ⟨h.workingDirectory, fun q => h.directory, fun q hq => ?_⟩
  obtain ⟨bytes, hbytes⟩ := Option.isSome_iff_exists.mp hq
  rw [content_eq_some_iff] at hbytes
  rcases h.get? q with heq | ⟨-, -, other, hother⟩ | ⟨hnone, -⟩
  · rw [content_of_get? heq, content_eq_some_iff.mpr hbytes, Option.isSome_some]
  · rw [content_eq_some_iff.mpr hother, Option.isSome_some]
  · rw [hbytes] at hnone
    cases hnone

namespace SameShape

theorem refl (fs : FileSystem) : fs.SameShape fs := ⟨.refl fs, .refl fs⟩

theorem trans (h : fs.SameShape fs') (h' : fs'.SameShape fs'') : fs.SameShape fs'' :=
  ⟨h.1.trans h'.1, h'.2.trans h.2⟩

theorem sound (h : fs.SameShape fs') (hs : fs.Sound) : fs'.Sound := by
  refine ⟨?_, fun q hq => h.1.directory _ (hs.above q (h.2.isSome hq))⟩
  rw [h.1.workingDirectory]
  exact h.1.directory _ hs.workingDirectory

/-- File systems of one shape whose files hold the same are the same. -/
theorem get?_eq (h : fs.SameShape fs') (hcontent : fs'.content q = fs.content q) :
    fs'.get? q = fs.get? q := by
  cases hbytes : fs.content q with
  | some bytes =>
    rw [hbytes] at hcontent
    rw [content_eq_some_iff.mp hbytes, content_eq_some_iff.mp hcontent]
  | none =>
    rw [hbytes] at hcontent
    rcases content_eq_none_iff.mp hbytes with hnone | hdirectory
    · rcases content_eq_none_iff.mp hcontent with hnone' | hdirectory
      · rw [hnone, hnone']
      · rw [h.2.directory q hdirectory] at hnone
        cases hnone
    · rw [hdirectory, h.1.directory q hdirectory]

/-- A file is written over by another one. -/
theorem of_update (hfile : (fs.content q).isSome)
    (hworking : fs'.workingDirectory = fs.workingDirectory)
    (hget : ∀ r, fs'.get? r = if r = q then some (.file bytes) else fs.get? r) :
    fs.SameShape fs' := by
  have hself : fs'.content q = some bytes := content_eq_some_iff.mpr (by rw [hget, if_pos rfl])
  obtain ⟨before, hbefore⟩ := Option.isSome_iff_exists.mp hfile
  rw [content_eq_some_iff] at hbefore
  have hother : ∀ r, r ≠ q → fs'.content r = fs.content r :=
    fun r hr => content_of_get? (by rw [hget, if_neg hr])
  refine ⟨⟨hworking, fun r hr => ?_, fun r hr => ?_⟩, hworking.symm, fun r hr => ?_, fun r hr => ?_⟩
  · rw [hget, if_neg, hr]
    rintro rfl
    rw [hr] at hbefore
    cases hbefore
  · by_cases hrq : r = q
    · rw [hrq, hself, Option.isSome_some]
    · rwa [hother r hrq]
  · rw [hget] at hr
    split at hr
    next => cases hr
    next => exact hr
  · by_cases hrq : r = q
    · rwa [hrq]
    · rwa [hother r hrq] at hr

end SameShape

theorem content_update (hget : ∀ r, fs'.get? r = if r = q then some (.file bytes) else fs.get? r) :
    fs'.content = Function.update fs.content q (some bytes) := by
  funext r
  by_cases hr : r = q
  · rw [hr, Function.update_self, content_eq_some_iff, hget, if_pos rfl]
  · rw [Function.update_of_ne hr]
    exact content_of_get? (by rw [hget, if_neg hr])

/-- New directories are no files: all that is written is the file that is stored. -/
theorem Stored.content_eq (h : Stored p bytes new fs fs') (hnew : ∀ x ∈ new, x.2 = .directory) :
    fs'.content = Function.update fs.content (fs.place p) (some bytes) := by
  funext r
  by_cases hr : r = fs.place p
  · rw [hr, Function.update_self, content_eq_some_iff, h.get?]
  · rw [Function.update_of_ne hr]
    rcases h.changes.get? r with heq | ⟨hmem, -⟩ | ⟨hnone, entry, hentry, hmem⟩
    · exact content_of_get? heq
    · exact absurd hmem hr
    · obtain rfl : entry = .directory := hnew _ hmem
      rw [content_eq_none_iff.mpr (.inr hentry), content_eq_none_iff.mpr (.inl hnone)]

/-- A path that names something behind a directory's path reaches that directory. -/
theorem Names.reaches_push (h : fs.Names (p.push (String.ofList name)) d name) :
    fs.Reaches p d := by
  obtain ⟨front, hfront, hwalk⟩ := h.walk
  rw [segments_push_name h.isName] at hfront
  rw [base_push_name h.isName] at hwalk
  exact ⟨List.append_cancel_right hfront ▸ hwalk, h.isDirectory⟩

end FileSystem

namespace Disk

variable {host host' : Host} {p : Path} {pieces pieces' : List (Except Cause Bytes)}
  {fs fs' late : FileSystem} {bytes : Bytes}

/-- Directories that were made are not made again. -/
theorem makeRoom_again (hs : fs.Sound) (h : makeRoom p fs = (.ok (), fs')) (hlate : fs'.Grown late)
    (hsound : late.Sound) : makeRoom p late = (.ok (), late) := by
  cases hp : p.parent? with
  | none => rw [makeRoom_eq, hp]
  | some directory =>
    obtain ⟨-, -, hground, -⟩ := makeRoom_spec hs p
    rw [h] at hground
    have hclear := hground.mp rfl
    have hreaches := makeRoom_reaches hs hp hclear
    rw [h] at hreaches
    obtain ⟨hwalk, hdirectory⟩ := hlate.reaches hreaches
    have hsegments : late.walk (late.base directory) directory.segments =
        .ok (fs.place directory) := by
      unfold stem at hwalk
      split at hwalk
      next hnil =>
        obtain ⟨front, hfront⟩ := List.getLast?_eq_some_iff.mp hnil
        rw [hfront, List.dropLast_concat] at hwalk
        rw [hfront, walk_append, hwalk]
        exact walk_of_isIdle hdirectory (by simp [isIdle])
      next => exact hwalk
    obtain ⟨hstate, houtcome⟩ := makeRoom_ends hsound hp (ground_eq_of_true hp hclear).1
    obtain ⟨hsame, hall⟩ := pave_of_walk hsound (hsound.base directory) hsegments
    rw [hsame] at hstate
    exact Prod.ext (houtcome.mpr (hall.mpr hdirectory)) hstate

/-- Where a file is replaced, its temporary file can be made, and then be moved. -/
theorem names_of_replace (h : replace host p pieces fs = (.ok (), fs')) :
    ∃ inside temporaryName written directory name,
    fs.Names (temporary host fs p) inside temporaryName ∧ Text.size temporaryName ≤ maxName ∧
    (fs.put (inside ++ [temporaryName]) (.file written)).Names p directory name ∧
    Text.size name ≤ maxName := by
  rw [replace_eq] at h
  split at h
  next => exact absurd h (giveUp_ne_ok _ _)
  next made q hcreate =>
    obtain ⟨inside, temporaryName, hnames, hsize, rfl, -, rfl⟩ := createFile_spec hcreate
    split at h
    next => exact absurd h (giveUp_ne_ok _ _)
    next written _ =>
      split at h
      next moved hmove =>
        rw [put_put] at hmove
        obtain ⟨directory, name, hself, hfit, -⟩ := moveFile_spec hmove
        exact ⟨inside, temporaryName, written, directory, name, hnames, hsize, hself, hfit⟩
      next => cases h

/-- A file that was replaced can be replaced again. -/
theorem replace_again (htag : host.Tagged) (htag' : host'.Tagged)
    (h : replace host p pieces fs = (.ok (), fs')) (hlate : fs'.Grown late)
    (hunused : late.get? (late.place (temporary host' late p)) = none)
    (hcontent : content pieces' = .ok bytes) :
    ∃ late', replace host' p pieces' late = (.ok (), late') ∧
      late'.workingDirectory = late.workingDirectory ∧
      ∀ q, late'.get? q = if q = late.place p then some (.file bytes) else late.get? q := by
  obtain ⟨_, -, hstored⟩ := replace_stored h
  obtain ⟨inside, temporaryName, written, d, name, hnames, hsize, hself, hfit⟩ := names_of_replace h
  have hdirectory : ∀ q, (fs.put (inside ++ [temporaryName]) (.file written)).get? q =
      some .directory →
      late.get? q = some .directory := by
    intro q hq
    rw [get?_put _ _ _ (by simp)] at hq
    split at hq
    next => cases hq
    next => exact hlate.directory q (hstored.changes.directory hq)
  have hworking : late.workingDirectory = fs.workingDirectory :=
    hlate.workingDirectory.trans hstored.changes.workingDirectory
  have hthere : late.Names p d name := hself.mono hworking hdirectory
  have htakes : late.Takes p := by
    refine ⟨d, name, hthere, hfit, ?_⟩
    rw [← hthere.place_eq, hlate.place_eq, hstored.changes.place_eq]
    obtain ⟨other, hother⟩ := Option.isSome_iff_exists.mp (hlate.file (fs.place p)
      (by rw [content_eq_some_iff.mpr hstored.get?, Option.isSome_some]))
    rw [content_eq_some_iff.mp hother]
    nofun
  obtain ⟨hname, front, hsegments⟩ := leaf?_eq_some_iff.mp hself.leaf?
  have hparted : p.Parted front name [] := ⟨hsegments, hname, by simp⟩
  have hd := hparted.parent?
  -- The name of the temporary file is as long as the one that was made.
  have htemporary := temporary_of_parted hparted hd host fs
  have hlast := hnames.leaf?
  rw [htemporary,
    leaf?_push_name (isName_temporaryName (Host.not_mem_of_isTag (htag fs p)))] at hlast
  obtain rfl := Option.some.inj hlast
  have hroomy : p.roomy := (roomy_iff fs htag hparted hd).mpr ⟨hsize, hnames.check⟩
  rw [htemporary] at hnames
  have hreaches := hlate.reaches (hstored.changes.reaches hnames.reaches_push)
  obtain ⟨hok, hsame, hget⟩ :=
    replace_of_takes htag' hparted hd hreaches hroomy hunused hcontent htakes
  exact ⟨_, Prod.ext hok rfl, hsame, hget⟩

end Disk
end FeatureDepot
