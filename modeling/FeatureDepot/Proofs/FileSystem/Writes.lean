import FeatureDepot.FileSystem.Access
import Mathlib.Logic.Function.Basic

/-! Files that are written one after the other, each from what another file, or the file itself,
holds at that time. When the same writes are made once more, each file ends up with what it had, if
what its last write reads is not written later on. -/
namespace FeatureDepot

/-- What the files of a file system hold, by their places. -/
def FileSystem.content (fs : FileSystem) (q : Place) : Option Bytes :=
  match fs.get? q with
  | some (.file content) => some content
  | _ => none

/-- A file that is written: the place that is read for it, its own place, and what it gets. -/
structure Write where
  source : Place
  target : Place
  make : Option Bytes → Bytes

namespace Write

variable {w : Write} {ws : List Write} {now before : Place → Option Bytes} {q : Place}

/-- What files hold after one is written. -/
def apply (w : Write) (now : Place → Option Bytes) : Place → Option Bytes :=
  Function.update now w.target (some (w.make (now w.source)))

/-- What files hold after writes, one after the other. -/
def applyAll (ws : List Write) (now : Place → Option Bytes) : Place → Option Bytes :=
  ws.foldl (fun now w => w.apply now) now

@[simp] theorem applyAll_nil (now : Place → Option Bytes) : applyAll [] now = now := rfl

@[simp] theorem applyAll_cons (w : Write) (ws : List Write) (now : Place → Option Bytes) :
    applyAll (w :: ws) now = applyAll ws (w.apply now) := rfl

theorem applyAll_append (front back : List Write) (now : Place → Option Bytes) :
    applyAll (front ++ back) now = applyAll back (applyAll front now) := List.foldl_append

theorem apply_target (w : Write) (now : Place → Option Bytes) :
    w.apply now w.target = some (w.make (now w.source)) :=
  Function.update_self ..

theorem apply_of_ne (h : q ≠ w.target) (now : Place → Option Bytes) : w.apply now q = now q :=
  Function.update_of_ne h ..

theorem applyAll_of_not_mem (h : ∀ w ∈ ws, q ≠ w.target) (now : Place → Option Bytes) :
    applyAll ws now q = now q := by
  induction ws generalizing now with
  | nil => rfl
  | cons w ws ih =>
    rw [applyAll_cons, ih fun w' hw' => h w' (List.mem_cons_of_mem _ hw'),
      apply_of_ne (h w List.mem_cons_self)]

/-- A file that is copied; nothing is copied from a place without a file. -/
def copy (source target : Place) : Write := ⟨source, target, (·.getD [])⟩

@[simp] theorem copy_source (source target : Place) : (copy source target).source = source := rfl

@[simp] theorem copy_target (source target : Place) : (copy source target).target = target := rfl

theorem apply_copy_self (source target : Place) (now : Place → Option Bytes) :
    (copy source target).apply now target = some ((now source).getD []) :=
  apply_target (copy source target) now

/-- Writes in which each file that is not of a kind of its own is either written once more, or
written from a file that is not written any more. -/
def Settling (own : Set Place) : List Write → Prop
  | [] => True
  | w :: ws =>
    (w.target ∈ own ∨ (∃ w' ∈ ws, w'.target = w.target) ∨ ∀ w' ∈ w :: ws, w.source ≠ w'.target) ∧
      Settling own ws

theorem settling_of_forall {own : Set Place}
    (h : ∀ w ∈ ws, w.target ∈ own ∨ w.source ∉ ws.map target) : Settling own ws := by
  have hall : ∀ rest : List Write, (∀ w ∈ rest, w ∈ ws) → Settling own rest := by
    intro rest hrest
    induction rest with
    | nil => trivial
    | cons w rest ih =>
      refine ⟨?_, ih fun w' hw' => hrest w' (List.mem_cons_of_mem _ hw')⟩
      refine (h w (hrest w List.mem_cons_self)).imp_right fun hsource =>
        .inr fun w' hw' heq => hsource ?_
      rw [heq]
      exact List.mem_map_of_mem (hrest w' hw')
  exact hall ws fun _ => id

/-- Writes settle behind others that settle, if what those read is not written any more, or all that
depends on it is written again. -/
theorem settling_append {own : Set Place} {front back : List Write} (hfront : Settling own front)
    (hback : Settling own back)
    (h : ∀ w ∈ front, w.target ∈ own ∨ (w.source ∈ back.map target → w.target ∈ back.map target)) :
    Settling own (front ++ back) := by
  induction front with
  | nil => exact hback
  | cons w front ih =>
    refine ⟨?_, ih hfront.2 fun w' hw' => h w' (List.mem_cons_of_mem _ hw')⟩
    rcases hfront.1 with hown | ⟨w', hw', hagain⟩ | hsource
    · exact .inl hown
    · exact .inr (.inl ⟨w', List.mem_append_left _ hw', hagain⟩)
    · rcases h w List.mem_cons_self with hown | hlater
      · exact .inl hown
      · by_cases hread : w.source ∈ back.map target
        · obtain ⟨w', hw', hagain⟩ := List.mem_map.mp (hlater hread)
          exact .inr (.inl ⟨w', List.mem_append_right _ hw', hagain⟩)
        · refine .inr (.inr fun w' hw' heq => ?_)
          rcases List.mem_append.mp (List.cons_append ▸ hw' : w' ∈
            w :: front ++ back) with hw' | hw'
          · exact hsource w' hw' heq
          · exact hread (heq ▸ List.mem_map_of_mem hw')

theorem settling_flatMap {own : Set Place} {ι : Type} {f : ι → List Write} {items : List ι}
    (hitems : ∀ i ∈ items, Settling own (f i))
    (h : items.Pairwise fun i j => ∀ w ∈ f i, w.target ∈ own ∨
      (w.source ∈ (f j).map target → w.target ∈ (f j).map target)) :
    Settling own (items.flatMap f) := by
  induction items with
  | nil => trivial
  | cons i items ih =>
    obtain ⟨hfirst, hrest⟩ := List.pairwise_cons.mp h
    rw [List.flatMap_cons]
    refine settling_append (hitems i List.mem_cons_self)
      (ih (fun j hj => hitems j (List.mem_cons_of_mem _ hj)) hrest) ?_
    intro w hw
    refine or_iff_not_imp_left.mpr fun hown hread => ?_
    rw [List.map_flatMap, List.mem_flatMap] at hread ⊢
    obtain ⟨j, hj, hsource⟩ := hread
    exact ⟨j, hj, (hfirst j hj w hw).resolve_left hown hsource⟩

/-- The invariant of writing once more: files that are not written any more hold what they are to
hold. -/
theorem applyAll_eq_of_settling {own : Set Place} (h : Settling own ws)
    (hnow : ∀ q, (∀ w ∈ ws, q ≠ w.target) → now q = applyAll ws before q)
    (hown : ∀ q ∈ own, applyAll ws now q = applyAll ws before q) :
    applyAll ws now = applyAll ws before := by
  induction ws generalizing now before with
  | nil =>
    funext q
    exact hnow q (by simp)
  | cons w ws ih =>
    rw [applyAll_cons, applyAll_cons]
    refine ih h.2 (fun q hq => ?_) hown
    by_cases htarget : q = w.target
    · -- This is the last time that the file is written.
      subst htarget
      rcases h.1 with hself | ⟨w', hw', hagain⟩ | hsource
      · rw [← applyAll_of_not_mem hq (w.apply now)]
        exact hown _ hself
      · exact absurd hagain.symm (hq w' hw')
      · have hread : now w.source = before w.source :=
          (hnow _ hsource).trans (applyAll_of_not_mem hsource before)
        rw [applyAll_of_not_mem hq, apply_target, apply_target, hread]
    · rw [apply_of_ne htarget]
      refine hnow q fun w' hw' => ?_
      rcases List.mem_cons.mp hw' with rfl | hw'
      · exact htarget
      · exact hq w' hw'

/-- Writes that settle, made twice, come to the same as made once. -/
theorem applyAll_applyAll {own : Set Place} (h : Settling own ws)
    (hown : ∀ q ∈ own, applyAll ws (applyAll ws before) q = applyAll ws before q) :
    applyAll ws (applyAll ws before) = applyAll ws before :=
  applyAll_eq_of_settling h (fun _ _ => rfl) hown

end Write
end FeatureDepot
