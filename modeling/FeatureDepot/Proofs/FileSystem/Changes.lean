import FeatureDepot.Proofs.FileSystem.Walk
import Mathlib.Data.Set.Basic

/-! What may become of a file system: files at some places get other contents, some entries are new,
and all else stays. Steps compose, so that the frame of an action is put together from those of its
parts. -/
namespace FeatureDepot.FileSystem

/-- From one file system to another, only `files` changed their contents or appeared, and of what is
there besides only `new` was not there before. No directory is touched. -/
structure Changes (files : Set Place) (new : Set (Place × Entry)) (fs fs' : FileSystem) : Prop where
  workingDirectory : fs'.workingDirectory = fs.workingDirectory
  get? (q : Place) : fs'.get? q = fs.get? q ∨
    (q ∈ files ∧ fs.get? q ≠ some .directory ∧ ∃ content, fs'.get? q = some (.file content)) ∨
    (fs.get? q = none ∧ ∃ entry, fs'.get? q = some entry ∧ (q, entry) ∈ new)

namespace Changes

variable {files files' : Set Place} {new new' : Set (Place × Entry)} {fs fs' fs'' : FileSystem}
  {p : Path} {q : Place} {entry : Entry} {content : Bytes}

theorem refl (fs : FileSystem) : Changes files new fs fs := ⟨rfl, fun _ => .inl rfl⟩

theorem mono (h : Changes files new fs fs') (hfiles : files ⊆ files') (hnew : new ⊆ new') :
    Changes files' new' fs fs' := by
  refine ⟨h.workingDirectory, fun q => ?_⟩
  rcases h.get? q with heq | ⟨hq, hrest⟩ | ⟨hnone, entry, hentry, hmem⟩
  · exact .inl heq
  · exact .inr (.inl ⟨hfiles hq, hrest⟩)
  · exact .inr (.inr ⟨hnone, entry, hentry, hnew hmem⟩)

/-- Whatever changed, directories are still there. -/
theorem forget (h : Changes files new fs fs') : Changes Set.univ Set.univ fs fs' :=
  h.mono (Set.subset_univ _) (Set.subset_univ _)

theorem trans (h : Changes files new fs fs') (h' : Changes files new fs' fs'') :
    Changes files new fs fs'' := by
  refine ⟨h'.workingDirectory.trans h.workingDirectory, fun q => ?_⟩
  rcases h'.get? q with heq' | ⟨hq, hdirectory, hcontent⟩ | ⟨hnone, entry, hentry, hmem⟩
  · rw [heq']
    exact h.get? q
  · rcases h.get? q with heq | ⟨-, hdirectory', -⟩ | ⟨hnone, -⟩
    · exact .inr (.inl ⟨hq, heq ▸ hdirectory, hcontent⟩)
    · exact .inr (.inl ⟨hq, hdirectory', hcontent⟩)
    · exact .inr (.inl ⟨hq, by simp [hnone], hcontent⟩)
  · rcases h.get? q with heq | ⟨-, -, content, hcontent⟩ | ⟨-, entry', hentry', -⟩
    · exact .inr (.inr ⟨heq ▸ hnone, entry, hentry, hmem⟩)
    · rw [hnone] at hcontent
      cases hcontent
    · rw [hnone] at hentry'
      cases hentry'

theorem place_eq (h : Changes files new fs fs') (p : Path) : fs'.place p = fs.place p := by
  unfold place
  rw [h.workingDirectory]

/-- What is not among the files stays what it is. -/
theorem get?_of_not_mem (h : Changes files new fs fs') (hq : q ∉ files)
    (hentry : fs.get? q = some entry) :
    fs'.get? q = some entry := by
  rcases h.get? q with heq | ⟨hmem, -⟩ | ⟨hnone, -⟩
  · rw [heq, hentry]
  · exact absurd hmem hq
  · rw [hnone] at hentry
    cases hentry

/-- What is neither among the files nor new is what it was, also where there is nothing. -/
theorem get?_eq (h : Changes files new fs fs') (hq : q ∉ files) (hnew : ∀ entry, (q, entry) ∉ new) :
    fs'.get? q = fs.get? q := by
  rcases h.get? q with heq | ⟨hmem, -⟩ | ⟨-, entry, -, hmem⟩
  · exact heq
  · exact absurd hmem hq
  · exact absurd hmem (hnew entry)

theorem directory (h : Changes files new fs fs') (hq : fs.get? q = some .directory) :
    fs'.get? q = some .directory := by
  rcases h.get? q with heq | ⟨-, hdirectory, -⟩ | ⟨hnone, -⟩
  · rw [heq, hq]
  · exact absurd hq hdirectory
  · rw [hnone] at hq
    cases hq

theorem locate (h : Changes files new fs fs') (hp : fs.locate p = .ok q)
    (hq : (fs'.get? q).isSome) :
    fs'.locate p = .ok q := locate_of_isSome h.workingDirectory (fun _ => h.directory) hp hq

theorem names {directory : Place} {name : Path.Segment} (h : Changes files new fs fs')
    (hp : fs.Names p directory name) : fs'.Names p directory name :=
  hp.mono h.workingDirectory fun _ => h.directory

theorem reaches {directory : Place} (h : Changes files new fs fs') (hp : fs.Reaches p directory) :
    fs'.Reaches p directory := by
  obtain ⟨hwalk, hdirectory⟩ := hp
  refine ⟨?_, h.directory hdirectory⟩
  rw [base_congr h.workingDirectory]
  exact walk_of_isSome (fun _ => h.directory) hwalk
    (by rw [h.directory hdirectory, Option.isSome_some])

/-- A file that is not among the changed ones can be read as before. -/
theorem read_of_not_mem (h : Changes files new fs fs') (hp : fs.place p ∉ files)
    (hread : fs.read p = .ok content) :
    fs'.read p = .ok content := by
  obtain ⟨q, hlocate, hq⟩ := read_eq_ok_iff.mp hread
  rw [place_of_locate hlocate] at hp
  have hq' := h.get?_of_not_mem hp hq
  exact read_eq_ok_iff.mpr ⟨q, h.locate hlocate (by rw [hq', Option.isSome_some]), hq'⟩

end Changes

variable {fs fs' : FileSystem} {p : Path}

/-- The places of directories that are made for a file. -/
def rooms (w : Place) (p : Path) : Set (Place × Entry) :=
  {x | x.2 = .directory ∧ ∃ directory ∈ p.parent?, ∃ d ∈ directory.lineage, x.1 = d.place w}

theorem changes_put {q : Place} (hne : q ≠ []) (hnone : fs.get? q = none) (entry : Entry) :
    Changes ∅ {(q, entry)} fs (fs.put q entry) := by
  refine ⟨rfl, fun r => ?_⟩
  rw [get?_put fs _ r hne]
  split
  next h =>
    subst h
    exact .inr (.inr ⟨hnone, _, rfl, rfl⟩)
  next => exact .inl rfl

lemma makeDirectory_changes (h : fs.makeDirectory p = .ok fs') :
    Changes ∅ {(fs.place p, .directory)} fs fs' := by
  obtain ⟨hne, hnone, rfl⟩ := makeDirectory_spec h
  exact changes_put hne hnone _

/-- Directories that are made are those of the lineage, even if not all of them can be made. -/
theorem makeLineage_changes (fs : FileSystem) (paths : List Path) :
    Changes ∅ {x | x.2 = .directory ∧ ∃ d ∈ paths, x.1 = fs.place d} fs
      (fs.makeLineage paths).1 := by
  have first {fs fs' : FileSystem} {p : Path} (above : List Path) (h : fs.makeDirectory p =
      .ok fs') : Changes ∅ {x | x.2 = .directory ∧ ∃ d ∈ p :: above, x.1 = fs.place d} fs fs' := by
    refine (makeDirectory_changes h).mono subset_rfl ?_
    rintro x rfl
    exact ⟨rfl, p, List.mem_cons_self, rfl⟩
  induction paths generalizing fs with
  | nil => exact .refl fs
  | cons p above ih =>
    rw [makeLineage]
    split
    next h => exact first above h
    next =>
      have habove := (ih fs).mono subset_rfl fun x ⟨hx, d, hd, hplace⟩ =>
        (⟨hx, d, List.mem_cons_of_mem p hd, hplace⟩ :
          x.2 = .directory ∧ ∃ d ∈ p :: above, x.1 = fs.place d)
      split
      next h => exact h ▸ habove
      next middle h =>
        rw [h] at habove
        split
        next hp =>
          have hlast := first above hp
          simp only [habove.place_eq] at hlast
          exact habove.trans hlast
        next => exact habove
    next => exact .refl fs

theorem makeDirectories_changes (fs : FileSystem) (p : Path) :
    Changes ∅ {x | x.2 = .directory ∧ ∃ d ∈ p.lineage, x.1 = fs.place d} fs
      (fs.makeDirectories p).1 :=
  makeLineage_changes fs p.lineage

end FeatureDepot.FileSystem
