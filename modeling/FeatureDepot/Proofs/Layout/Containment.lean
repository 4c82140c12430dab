import FeatureDepot.Depot
import FeatureDepot.Proofs.Layout.Nested
import Mathlib.Data.Set.Finite.List

/-! Which artifacts stay below the root. The path of a file goes down one directory for each part of
its group and for its name and base version, unless these are dots that lead up again; it leaves the
root if they lead up too far. -/
namespace FeatureDepot
open FeatureDepot.Path

namespace Path

variable {w : Place} {names segments front back : List Segment} {depth : Nat} {s t : Segment}

/-- A path that leads to a place below the one that another path leads to. -/
def Inside (w : Place) (p root : Path) : Prop :=
  root.place w <+: p.place w ∧ root.place w ≠ p.place w

instance (w : Place) (p root : Path) : Decidable (Inside w p root) :=
  inferInstanceAs (Decidable (_ ∧ _))

/-- How many directories below a place one more segment leads, unless it leads above the place. -/
def deepen (depth : Nat) (s : Segment) : Option Nat :=
  if isIdle s then some depth
  else if s = ['.', '.'] then if depth = 0 then none else some (depth - 1)
  else some (depth + 1)

/-- Segments that never lead above a place, from a number of directories below it. -/
def Stays : Nat → List Segment → Prop
  | _, [] => True
  | depth, s :: segments => ∃ next ∈ deepen depth s, Stays next segments

lemma deepen_of_isIdle (depth : Nat) (h : isIdle s) :
    deepen depth s = some depth := by simp [deepen, h]

theorem deepen_zero_dots : deepen 0 ['.', '.'] = none := rfl

lemma deepen_succ_dots (depth : Nat) : deepen (depth + 1) ['.', '.'] = some depth := rfl

lemma deepen_of_ne (depth : Nat) (hidle : isIdle s = false) (hdots : s ≠ ['.', '.']) :
    deepen depth s = some (depth + 1) := by
  simp [deepen, hidle, hdots]

lemma deepen_eq_none_iff : deepen depth s = none ↔ depth = 0 ∧ s = ['.', '.'] := by
  unfold deepen
  split
  next hidle =>
    have hdots : s ≠ ['.', '.'] := by
      rintro rfl
      simp [isIdle] at hidle
    simp [hdots]
  next =>
    split
    next hdots =>
      split
      next hdepth => simp [hdots, hdepth]
      next hdepth => simp [hdepth]
    next hdots => simp [hdots]

/-- One segment that does not lead above a place leads from below it to below it, whatever the place
is. -/
theorem enter_of_deepen (h : deepen names.length s = some depth) :
    ∃ below : Place, below.length = depth ∧ ∀ w, enter (w ++ names) s = w ++ below := by
  unfold deepen at h
  unfold enter
  split at h
  next hidle =>
    obtain rfl := Option.some.inj h
    exact ⟨names, rfl, fun w => if_pos hidle⟩
  next hidle =>
    split at h
    next hdots =>
      obtain ⟨hne, h⟩ := Option.ite_none_left_eq_some.mp h
      obtain rfl := Option.some.inj h
      refine ⟨names.dropLast, List.length_dropLast, fun w => ?_⟩
      rw [if_neg hidle, if_pos hdots,
        List.dropLast_append_of_ne_nil (List.ne_nil_of_length_pos (Nat.pos_of_ne_zero hne))]
    next hdots =>
      obtain rfl := Option.some.inj h
      refine ⟨names ++ [s], by simp, fun w => ?_⟩
      rw [if_neg hidle, if_neg hdots, List.append_assoc]

lemma isPrefix_foldl_of_stays (h : Stays names.length segments) :
    w <+: segments.foldl enter (w ++ names) := by
  induction segments generalizing names with
  | nil => exact List.prefix_append _ _
  | cons s segments ih =>
    obtain ⟨depth, hdepth, h⟩ := h
    obtain ⟨below, rfl, henter⟩ := enter_of_deepen hdepth
    rw [List.foldl_cons, henter]
    exact ih h

lemma mem_of_mem_foldl_enter (h : s ∈ segments.foldl enter w) : s ∈ w ∨ s ∈ segments := by
  induction segments generalizing w with
  | nil => exact .inl h
  | cons t segments ih =>
    rcases ih h with h | h
    · unfold enter at h
      split at h
      next => exact .inl h
      next =>
        split at h
        next => exact .inl (List.mem_of_mem_dropLast h)
        next =>
          rcases List.mem_append.mp h with h | h
          · exact .inl h
          · exact .inr (List.mem_singleton.mp h ▸ List.mem_cons_self)
    · exact .inr (List.mem_cons_of_mem _ h)

/-- Segments that lead above a directory do not lead back into it if they do not name it. -/
theorem stays_of_isPrefix_foldl (hs : s ∉ segments)
    (h : [s] <+: segments.foldl enter ([s] ++ names)) :
    Stays names.length segments := by
  induction segments generalizing names with
  | nil => trivial
  | cons t segments ih =>
    have hrest : s ∉ segments := fun hmem => hs (List.mem_cons_of_mem _ hmem)
    rw [List.foldl_cons] at h
    cases hdepth : deepen names.length t with
    | none =>
      obtain ⟨hnames, rfl⟩ := deepen_eq_none_iff.mp hdepth
      obtain rfl := List.eq_nil_of_length_eq_zero hnames
      have hmem : s ∈ segments.foldl enter [] := h.subset List.mem_cons_self
      rcases mem_of_mem_foldl_enter hmem with hmem | hmem
      · exact absurd hmem List.not_mem_nil
      · exact absurd hmem hrest
    | some depth =>
      obtain ⟨below, rfl, henter⟩ := enter_of_deepen hdepth
      rw [henter] at h
      exact ⟨_, hdepth, ih hrest h⟩

/-- Segments stay below whatever place they start from if and only if they never lead above it. -/
theorem isPrefix_foldl_enter_iff :
    (∀ w : Place, w <+: segments.foldl enter w) ↔ Stays 0 segments := by
  constructor
  · intro h
    obtain ⟨s, hs⟩ := Infinite.exists_notMem_finset segments.toFinset
    rw [List.mem_toFinset] at hs
    have hprefix : [s] <+: segments.foldl enter ([s] ++ []) := by simpa using h [s]
    exact stays_of_isPrefix_foldl hs hprefix
  · intro h w
    have hprefix : w <+: segments.foldl enter (w ++ []) := isPrefix_foldl_of_stays h
    rwa [List.append_nil] at hprefix

lemma stays_cons_of_deepen {next : Nat} (h : deepen depth s = some next) :
    Stays depth (s :: segments) ↔ Stays next segments := by
  simp [Stays, h]

lemma stays_append_of_isName (h : ∀ s ∈ front, s = [] ∨ IsName s) :
    Stays depth (front ++ back) ↔ Stays (depth + (front.filter (! ·.isEmpty)).length) back := by
  induction front generalizing depth with
  | nil => simp
  | cons s front ih =>
    have hrest : ∀ depth, Stays depth (front ++ back) ↔
        Stays (depth + (front.filter (! ·.isEmpty)).length) back :=
          fun _ => ih fun t ht => h t (List.mem_cons_of_mem _ ht)
    rw [List.cons_append]
    rcases h s List.mem_cons_self with rfl | hs
    · rw [stays_cons_of_deepen (deepen_of_isIdle depth rfl), hrest,
        List.filter_cons_of_neg (by simp)]
    · rw [stays_cons_of_deepen (deepen_of_ne depth hs.2.1 hs.2.2), hrest,
        List.filter_cons_of_pos (by simpa using hs.ne_nil), List.length_cons,
        Nat.add_right_comm, Nat.add_assoc]

/-- Of two segments, dots lead up as often as they occur, and only the first can lead down
before. -/
theorem stays_pair_iff (hs : s ≠ []) :
    Stays depth [s, t] ↔ [s, t].count ['.', '.'] ≤ depth + if s = ['.'] ∨
    s = ['.', '.'] then 0 else 1 := by
  have hlast : ∀ depth, Stays depth [t] ↔ [t].count ['.', '.'] ≤ depth := by
    intro depth
    have hstep : Stays depth [t] ↔ deepen depth t ≠ none := by
      simp [Stays, Option.ne_none_iff_exists']
    rw [hstep, Ne, deepen_eq_none_iff]
    by_cases hdots : t = ['.', '.']
    · simp [hdots, Nat.one_le_iff_ne_zero]
    · simp [hdots]
  rw [List.count_cons]
  by_cases hdot : s = ['.']
  · rw [stays_cons_of_deepen (deepen_of_isIdle depth (by simp [isIdle, hdot])), hlast]
    simp [hdot]
  · have hidle : isIdle s = false := by simp [isIdle, hs, hdot]
    by_cases hdots : s = ['.', '.']
    · subst hdots
      cases depth with
      | zero => simp [Stays, deepen_zero_dots]
      | succ depth =>
        rw [stays_cons_of_deepen (deepen_succ_dots depth), hlast]
        simp
    · rw [stays_cons_of_deepen (deepen_of_ne depth hidle hdots), hlast]
      simp [hdot, hdots]

/-- Below a name, all that counts is where the directory that holds it lies. -/
theorem isPrefix_concat_and_ne_iff {root directory : Place} :
    root <+: directory ++ [s] ∧ root ≠ directory ++ [s] ↔ root <+: directory := by
  rw [List.prefix_concat_iff]
  constructor
  · rintro ⟨h | h, hne⟩
    · exact absurd h hne
    · exact h
  · intro h
    refine ⟨.inr h, fun heq => ?_⟩
    have hlength := h.length_le
    rw [heq, List.length_append, List.length_singleton] at hlength
    omega

end Path

namespace Layout

variable {a : Artifact} {w : Place}

/-- A file lies where the segments of its path lead from the root. -/
theorem place_filePath_eq_foldl (layout : Layout) (root : Path) (a : Artifact) :
    (layout.filePath root a).place w =
      (Path.mk (layout.relativePath a)).segments.foldl enter (root.place w) :=
  place_pushAll_eq_foldl fun _ hs => not_mem_of_mem_segments hs

/-- In one directory for all, files lie right below the root. -/
theorem inside_filePath_flat (ha : a.Slashless) (root : Path) (w : Place) :
    Inside w (flat.filePath root a) root := by
  have hplace : (flat.filePath root a).place w = root.place w ++ [(fileName a).toList] := by
    rw [place_filePath_eq_foldl, segments_relativePath_flat ha.fileName, List.foldl_cons,
      List.foldl_nil, enter_of_isName _ (Artifact.isName_fileName ha.fileName)]
  unfold Inside
  rw [hplace, isPrefix_concat_and_ne_iff]

lemma inside_filePath_nested_iff (ha : a.Slashless) (root : Path) (w : Place) :
    Inside w (nested.filePath root a) root ↔
      root.place w <+: (a.group.toList.splitOn '.' ++ [a.name.toList, a.baseVersion.toList]).foldl
        enter (root.place w) := by
  have hplace : (nested.filePath root a).place w =
      (a.group.toList.splitOn '.' ++ [a.name.toList, a.baseVersion.toList]).foldl enter
        (root.place w) ++
        [(fileName a).toList] := by
    rw [place_filePath_eq_foldl, segments_relativePath ha,
      ← enter_of_isName _ (Artifact.isName_fileName ha.fileName)]
    simp [List.foldl_append]
  unfold Inside
  rw [hplace, isPrefix_concat_and_ne_iff]

/-- The levels that dots in an artifact's name and base version lead up, and those that its group
and name lead down. -/
theorem stays_iff (ha : a.Slashless) :
    Stays 0 (a.group.toList.splitOn '.' ++ [a.name.toList, a.baseVersion.toList]) ↔
    [a.name, a.baseVersion].count ".." ≤
      (groupNames a.group).length + if a.name = "." ∨ a.name = ".." then 0 else 1 := by
  have hdot : ∀ text : String, text.toList = ['.'] ↔ text = "." :=
    fun text => @String.toList_inj text "."
  have hdots : ∀ text : String, text.toList = ['.', '.'] ↔ text = ".." :=
    fun text => @String.toList_inj text ".."
  rw [stays_append_of_isName (eq_nil_or_isName ha.group), Nat.zero_add, stays_pair_iff ha.name.1]
  simp only [hdot, hdots, List.count_cons, List.count_nil, beq_iff_eq]
  rfl

end Layout

namespace Depot
open Layout

variable {location : String} {a : Artifact}

/-- An artifact of an mvn URL lies below the root of each depot that has one directory for all
files. It lies below the root of every depot if and only if dots in place of its name and its base
version do not lead further up than its group and its name lead down. -/
theorem inside_destination (h : Location.artifact? location = some a) :
    (∀ d : Depot, d.layout = .flat → ∀ w, Inside w (d.destination a) d.root) ∧
    ((∀ (d : Depot) (w : Place), Inside w (d.destination a) d.root) ↔
      [a.name, a.baseVersion].count ".." ≤
        (groupNames a.group).length + if a.name = "." ∨ a.name = ".." then 0 else 1) := by
  have ha := Location.slashless_of_artifact? h
  have hflat : ∀ d : Depot, d.layout = .flat → ∀ w, Inside w (d.destination a) d.root := by
    intro d hd w
    rw [destination, hd]
    exact inside_filePath_flat ha d.root w
  refine ⟨hflat, ?_⟩
  rw [← stays_iff ha, ← isPrefix_foldl_enter_iff]
  constructor
  · intro hinside w
    exact (inside_filePath_nested_iff ha ⟨""⟩ w).mp (hinside ⟨⟨""⟩, .nested, false⟩ w)
  · intro hstays d w
    cases hd : d.layout with
    | flat => exact hflat d hd w
    | nested =>
      rw [destination, hd]
      exact (inside_filePath_nested_iff ha d.root w).mpr (hstays _)

theorem inside_destination_dots :
    (Depot.mk ⟨"repo"⟩ .nested false).destination (.ofVersionText "g.h" ".." "..") =
      ⟨"repo/g/h/../../..-...jar"⟩ ∧
    Inside [] ⟨"repo/g/h/../../..-...jar"⟩ ⟨"repo"⟩ := by
  have hlocation : Location.artifact? "mvn:g.h/../.." = some (.ofVersionText "g.h" ".." "..") := by
    decide +kernel
  have hpath : (Depot.mk ⟨"repo"⟩ .nested false).destination (.ofVersionText "g.h" ".." "..") =
      ⟨"repo/g/h/../../..-...jar"⟩ := by decide +kernel
  have hinside :=
    (inside_destination hlocation).2.mpr (by decide +kernel) ⟨⟨"repo"⟩, .nested, false⟩ []
  rw [hpath] at hinside
  exact ⟨hpath, hinside⟩

/-- A version of dots that leads out of the depot. -/
theorem destination_outside :
    Location.artifact? "mvn:g/../.." = some (.ofVersionText "g" ".." "..") ∧
    (Depot.mk ⟨"repo"⟩ .nested false).destination (.ofVersionText "g" ".." "..") =
      ⟨"repo/g/../../..-...jar"⟩ ∧
    Path.place [] ⟨"repo/g/../../..-...jar"⟩ = ["..-...jar".toList] ∧
    ¬ Inside [] ⟨"repo/g/../../..-...jar"⟩ ⟨"repo"⟩ := by
  decide +kernel

end Depot
end FeatureDepot
