import FeatureDepot.Proofs.FileSystem.Replacing
import FeatureDepot.Run
import Mathlib.Data.Set.Insert

/-! Actions that may fail halfway. Whatever becomes of one, no more than its own files change;
directories and a temporary file beside it can be left behind, so long as temporary files get names
that nothing has. -/
namespace FeatureDepot
open FileSystem FeatureDepot.Path

/-- The temporary file for a path gets a name that nothing has. -/
def Host.Avoids (host : Host) (fs : FileSystem) (p : Path) : Prop := '/' ∉ (host.tag fs p).toList ∧
  fs.get? (fs.place (Disk.temporary host fs p)) = none

instance (host : Host) (fs : FileSystem) (p : Path) : Decidable (host.Avoids fs p) :=
  inferInstanceAs (Decidable (_ ∧ _))

/-- Temporary files always get names that nothing has. -/
def Host.Fresh (host : Host) : Prop := ∀ fs p, host.Avoids fs p

namespace Disk

variable {α β : Type} {w : Place} {files files' : Set Place} {new new' : Set (Place × Entry)}
  {x : Disk α} {host : Host} {p : Path} {s : Segment} {fs fs' : FileSystem}
  {pieces : List (Except Cause Bytes)}

/-- Whatever becomes of an action from a working directory on, only `files` change and only `new` is
new. -/
def Within (w : Place) (files : Set Place) (new : Set (Place × Entry)) (x : Disk α) : Prop :=
  ∀ fs, fs.workingDirectory = w → Changes files new fs (x fs).2

namespace Within

theorem pure (a : α) : Within w files new (return a : Disk α) := fun fs _ => .refl fs

theorem fail (cause : Cause) : Within w files new (fail cause : Disk α) := fun fs _ => .refl fs

theorem mono (h : Within w files new x) (hfiles : files ⊆ files') (hnew : new ⊆ new') :
    Within w files' new' x :=
  fun fs hw => (h fs hw).mono hfiles hnew

theorem bind {f : α → Disk β} (hx : Within w files new x) (hf : ∀ a, Within w files new (f a)) :
    Within w files new (x >>= f) := by
  intro fs hw
  have hfirst := hx fs hw
  rw [bind_eq]
  rcases hresult : x fs with ⟨outcome | a, middle⟩
  · rw [hresult] at hfirst
    exact hfirst
  · rw [hresult] at hfirst
    exact hfirst.trans (hf a middle (hfirst.workingDirectory.trans hw))

theorem during {activity : Activity} (h : Within w files new x) :
    Within w files new (during activity x) := by
  intro fs hw
  rw [during_eq]
  exact h fs hw

theorem look (operation : FileSystem → Except IoError α) : Within w files new (look operation) := by
  intro fs _
  rw [look_eq]
  exact .refl fs

end Within

/-- Directories anywhere, and what lies in the directory of a path. -/
def beside (w : Place) (p : Path) : Set (Place × Entry) :=
  {x | x.2 = .directory ∨ x.1.dropLast = (p.place w).dropLast}

lemma rooms_subset_beside (w : Place) (p : Path) : rooms w p ⊆ beside w p := fun _ hx => .inl hx.1

/-- Where a file is not replaced, all that can be left behind is the temporary file. -/
theorem replace_failed {failure : Failure} (hfresh : host.Fresh)
    (h : replace host p pieces fs = (.error failure, fs')) :
    Changes ∅ {x | x.1 = fs.place (temporary host fs p)} fs fs' := by
  have hsteps := Replacing.steps_replace host p pieces fs
  rw [h] at hsteps
  exact Replacing.changes_of_steps (hfresh fs p).2 hsteps (by simp)

theorem replace_changes (hfresh : host.Fresh) (p : Path) (pieces : List (Except Cause Bytes))
    (fs : FileSystem) :
    Changes {fs.place p} {x | x.1 = fs.place (temporary host fs p)} fs
      (replace host p pieces fs).2 := by
  rcases h : replace host p pieces fs with ⟨failure | _, fs'⟩
  · exact (replace_failed hfresh h).mono (Set.empty_subset _) subset_rfl
  · obtain ⟨_, -, hstored⟩ := replace_stored h
    exact hstored.changes.mono subset_rfl (Set.empty_subset _)

theorem replace_within (hfresh : host.Fresh) (hp : p.leaf? = some s)
    (pieces : List (Except Cause Bytes)) :
    Within w {p.place w} (beside w p) (replace host p pieces) := by
  rintro fs rfl
  refine (replace_changes hfresh p pieces fs).mono subset_rfl ?_
  intro x hx
  have hplace : x.1 = (temporary host fs p).place fs.workingDirectory := hx
  exact .inr (by rw [hplace, dropLast_place_temporary hp (hfresh fs p).1])

lemma makeRoom_within (w : Place) (p : Path) : Within w files (beside w p) (makeRoom p) := by
  rintro fs rfl
  exact (makeRoom_changes p fs).mono (Set.empty_subset _) (rooms_subset_beside _ p)

theorem copy_within (hfresh : host.Fresh) (hp : p.leaf? = some s) (source : Path) :
    Within w {p.place w} (beside w p) (copy host source p) :=
  (Within.look _).bind fun _ => (makeRoom_within w p).bind fun _ => replace_within hfresh hp _

end Disk

/-- The length of the longest of some names. -/
def longest (names : List Segment) : Nat := names.foldr (fun s n => max s.length n) 0

lemma length_le_longest {names : List Segment} {s : Segment} (h : s ∈ names) :
    s.length ≤ longest names := by
  induction names with
  | nil => cases h
  | cons t names ih =>
    have hstep : longest (t :: names) = max t.length (longest names) := rfl
    rw [hstep]
    rcases List.mem_cons.mp h with rfl | h
    · exact le_max_left _ _
    · exact (ih h).trans (le_max_right _ _)

/-- A host whose tags are as long as the longest name there is. -/
def Host.long (now : String) : Host where
  now
  tag fs _ := String.ofList (List.replicate (longest (fs.entries.flatMap Prod.fst)) '0')

theorem Host.fresh_long (now : String) : (Host.long now).Fresh := by
  intro fs p
  have htag : '/' ∉ ((Host.long now).tag fs p).toList := by simp [Host.long]
  refine ⟨htag, ?_⟩
  have hlast := Disk.getLast?_place_temporary (w := fs.workingDirectory) htag
  by_contra hsome
  obtain ⟨entry, hentry⟩ := Option.ne_none_iff_exists'.mp hsome
  have hroot : fs.place (Disk.temporary (Host.long now) fs p) ≠ [] := by
    intro hnil
    rw [FileSystem.place] at hnil
    rw [hnil] at hlast
    cases hlast
  have hname : Disk.temporaryName (Host.long now) fs p ∈ fs.entries.flatMap Prod.fst :=
    List.mem_flatMap.mpr
      ⟨_, FileSystem.mem_entries_of_get? hentry hroot, List.mem_of_getLast? hlast⟩
  have hlength := length_le_longest hname
  simp [Disk.temporaryName, Host.long] at hlength
  omega

theorem Metadata.update_within {host : Host} {p : Path} {s : Segment} (w : Place)
    (hfresh : host.Fresh) (hp : p.leaf? = some s) (change : Metadata → Metadata) :
    Disk.Within w {p.place w} (Disk.beside w p) (update host p change) := by
  have hread : Disk.Within w {p.place w} (Disk.beside w p) (read p) := by
    intro fs _
    rw [read_eq]
    exact .refl fs
  have hwrite : ∀ m : Metadata, Disk.Within w {p.place w} (Disk.beside w p) (write host p m) :=
    fun m => (Disk.makeRoom_within w p).bind fun _ => Disk.replace_within hfresh hp _
  exact hread.during.bind fun m => (hwrite _).during

end FeatureDepot
