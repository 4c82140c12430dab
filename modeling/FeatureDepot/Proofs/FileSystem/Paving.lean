import FeatureDepot.Proofs.FileSystem.Changes

/-! Making directories from the outside in: each one that is missing, up to the first that cannot be
made. Which these are depends on the files that are in the way and on the lengths of the names, but
not on what directories are there already. -/
namespace FeatureDepot.FileSystem
open FeatureDepot.Path Batch

variable {fs fs' : FileSystem} {p : Path} {w q d : Place} {s : Segment}
  {segments front back : List Segment} {content : Bytes}

/-- All that is there lies in directories, and relative paths start in one. -/
structure Sound (fs : FileSystem) : Prop where
  workingDirectory : fs.get? fs.workingDirectory = some .directory
  above (q : Place) : (fs.get? q).isSome → fs.get? q.dropLast = some .directory

@[simp] lemma get?_nil (fs : FileSystem) : fs.get? [] = some .directory := by simp [get?]

lemma ne_nil_of_get? (h : fs.get? q ≠ some .directory) : q ≠ [] := by
  rintro rfl
  exact h (get?_nil fs)

theorem ne_nil_of_none (h : fs.get? q = none) : q ≠ [] :=
  ne_nil_of_get? (by rw [h]; nofun : fs.get? q ≠ some .directory)

/-- Whether a place holds a file. -/
def isFile (fs : FileSystem) (q : Place) : Bool := fs.get? q matches some (.file _)

theorem isFile_iff : fs.isFile q ↔ ∃ content, fs.get? q = some (.file content) := by
  unfold isFile
  rcases fs.get? q with - | - | - <;> simp

namespace Sound

/-- To see that a file system is well-formed it is enough to look at its entries. -/
theorem of_entries (hworking : fs.get? fs.workingDirectory = some .directory)
    (h : ∀ e ∈ fs.entries, fs.get? e.1.dropLast = some .directory) : fs.Sound := by
  refine ⟨hworking, fun q hq => ?_⟩
  by_cases hnil : q = []
  · rw [hnil]
    exact get?_nil fs
  · obtain ⟨entry, hentry⟩ := Option.isSome_iff_exists.mp hq
    unfold get? at hentry
    rw [if_neg hnil] at hentry
    obtain ⟨before, after, hsplit, -⟩ := List.lookup_eq_some_iff.mp hentry
    exact h (q, entry) (by simp [hsplit])

/-- What is put into a directory may be anything, except a file in place of a directory. -/
theorem put (h : fs.Sound) (hw : fs.get? w = some .directory)
    (hs : fs.get? (w ++ [s]) ≠ some .directory) (entry : Entry) :
    (fs.put (w ++ [s]) entry).Sound := by
  have hne : w ++ [s] ≠ [] := by simp
  have hkeep : ∀ q, fs.get? q = some .directory →
      (fs.put (w ++ [s]) entry).get? q = some .directory := by
    intro q hq
    rw [get?_put _ _ _ hne, if_neg, hq]
    rintro rfl
    exact hs hq
  refine ⟨hkeep _ h.workingDirectory, fun q hq => ?_⟩
  rw [get?_put _ _ _ hne] at hq
  split at hq
  next heq =>
    rw [heq, List.dropLast_concat]
    exact hkeep w hw
  next => exact hkeep _ (h.above q hq)

theorem base (h : fs.Sound) (p : Path) : fs.get? (fs.base p) = some .directory := by
  unfold FileSystem.base
  split
  · exact get?_nil fs
  · exact h.workingDirectory

end Sound

/-- Whether nothing is in the way of a segment that is followed from a directory, where directories
are made as needed. -/
def clear (fs : FileSystem) (w : Place) (s : Segment) : Bool :=
  isIdle s || s == ['.', '.'] || (decide (Text.size s ≤ maxName) && !fs.isFile (w ++ [s]))

/-- The places that segments lead through behind a place, up to what is in the way, and whether
nothing is. -/
def paving (fs : FileSystem) (w : Place) : List Segment → List Place × Bool
  | [] => ([], true)
  | s :: segments =>
    if fs.clear w s then
      (enter w s :: (fs.paving (enter w s) segments).1, (fs.paving (enter w s) segments).2)
    else ([], false)

/-- Makes a directory that a segment names if there is nothing. -/
def lay (fs : FileSystem) (w : Place) (s : Segment) : FileSystem :=
  if fs.get? (enter w s) = none then fs.put (enter w s) .directory else fs

/-- Makes the directories that segments lead through, from the outside in, up to what is in the
way. -/
def pave (fs : FileSystem) (w : Place) : List Segment → FileSystem × Bool
  | [] => (fs, true)
  | s :: segments => if fs.clear w s then (fs.lay w s).pave (enter w s) segments else (fs, false)

/-- All places that segments lead through, from the first one on. -/
def visits (w : Place) : List Segment → List Place
  | [] => [w]
  | s :: segments => w :: visits (enter w s) segments

theorem visits_append (w : Place) (front back : List Segment) : ∀ q, q ∈ visits w (front ++ back) ↔
    q ∈ visits w front ∨ q ∈ visits (front.foldl enter w) back := by
  intro q
  induction front generalizing w with
  | nil =>
    have hfirst : q = w → q ∈ visits w back := by
      rintro rfl
      cases back <;> simp [visits]
    simpa [visits] using hfirst
  | cons s front ih => simp [visits, ih, or_assoc]

theorem foldl_enter_mem_visits (w : Place) (segments : List Segment) :
    segments.foldl enter w ∈ visits w segments := by
  induction segments generalizing w with
  | nil => simp [visits]
  | cons s segments ih => exact List.mem_cons_of_mem _ (ih _)

theorem mem_visits_of_mem_paving (hq : q ∈ (fs.paving w segments).1) : q ∈ visits w segments := by
  induction segments generalizing w with
  | nil => exact absurd hq List.not_mem_nil
  | cons s segments ih =>
    rw [paving] at hq
    split at hq
    next =>
      rcases List.mem_cons.mp hq with rfl | hq
      · exact List.mem_cons_of_mem _ (by cases segments <;> simp [visits])
      · exact List.mem_cons_of_mem _ (ih hq)
    next => exact absurd hq List.not_mem_nil

/-- Segments that lead nowhere pass nothing else. -/
theorem mem_visits_of_isIdle (h : ∀ s ∈ segments, isIdle s) : q ∈ visits w segments ↔ q = w := by
  induction segments with
  | nil => simp [visits]
  | cons s segments ih =>
    rw [visits, List.mem_cons, enter_of_isIdle w (h s List.mem_cons_self),
      ih fun t ht => h t (List.mem_cons_of_mem _ ht), or_self]

lemma mem_visits_append_of_isIdle (h : ∀ s ∈ back, isIdle s) :
    q ∈ visits w (front ++ back) ↔ q ∈ visits w front := by
  rw [visits_append, mem_visits_of_isIdle h]
  exact or_iff_left_of_imp fun hq => hq ▸ foldl_enter_mem_visits w front

theorem mem_visits_stem : q ∈ visits w (stem segments) ↔ q ∈ visits w segments := by
  unfold stem
  split
  next h =>
    obtain ⟨front, rfl⟩ := List.getLast?_eq_some_iff.mp h
    rw [List.dropLast_concat, mem_visits_append_of_isIdle (by simp [isIdle])]
  next => rfl

theorem mem_visits_trim : q ∈ visits w (trim segments) ↔ q ∈ visits w segments := by
  obtain ⟨tail, htail, hsegments⟩ := exists_eq_trim_append segments
  conv_rhs => rw [hsegments, mem_visits_append_of_isIdle htail]

/-- Names only lead down. -/
theorem between_of_mem_visits (h : ['.', '.'] ∉ segments) (hq : q ∈ visits w segments) :
    w <+: q ∧ q <+: segments.foldl enter w := by
  induction segments generalizing q w with
  | nil =>
    obtain rfl : q = w := by simpa [visits] using hq
    exact ⟨List.prefix_refl q, List.prefix_refl q⟩
  | cons s segments ih =>
    obtain ⟨hs, hrest⟩ := not_or.mp (mt List.mem_cons.mpr h)
    have hstep : w <+: enter w s := by
      unfold enter
      split
      next => exact List.prefix_refl w
      next => rw [if_neg (Ne.symm hs)]; exact List.prefix_append _ _
    have hfirst : enter w s ∈ visits (enter w s) segments := by cases segments <;> simp [visits]
    rw [List.foldl_cons]
    rcases List.mem_cons.mp hq with rfl | hq
    · exact ⟨List.prefix_refl q, hstep.trans (ih hrest hfirst).2⟩
    · obtain ⟨habove, hbelow⟩ := ih hrest hq
      exact ⟨hstep.trans habove, hbelow⟩

/-- Where nothing is in the way, all places behind the first one are needed. -/
theorem mem_paving_of_mem_visits (h : (fs.paving w segments).2) (hq : q ∈ visits w segments) :
    q = w ∨ q ∈ (fs.paving w segments).1 := by
  induction segments generalizing w with
  | nil => exact .inl (by simpa [visits] using hq)
  | cons s segments ih =>
    rw [paving] at h ⊢
    split at h
    next hclear =>
      rw [if_pos hclear]
      rcases List.mem_cons.mp hq with rfl | hq
      · exact .inl rfl
      · rcases ih h hq with rfl | hq
        · exact .inr List.mem_cons_self
        · exact .inr (List.mem_cons_of_mem _ hq)
    next => cases h

lemma clear_congr (h : fs.isFile (w ++ [s]) = fs'.isFile (w ++ [s])) :
    fs.clear w s = fs'.clear w s := by
  unfold clear
  rw [h]

theorem enter_eq_append (hs : ¬ (isIdle s ∨ s = ['.', '.'])) : enter w s = w ++ [s] := by
  unfold enter
  rw [if_neg fun h => hs (.inl h), if_neg fun h => hs (.inr h)]

theorem clear_of_not (hs : ¬ (isIdle s ∨ s = ['.', '.'])) : fs.clear w s ↔
    Text.size s ≤ maxName ∧ ¬ fs.isFile (enter w s) := by
  have hfalse : (isIdle s || s == ['.', '.']) = false := by
    rw [Bool.eq_false_iff]
    simpa using hs
  rw [enter_eq_append hs, clear, hfalse, Bool.false_or, Bool.and_eq_true, decide_eq_true_eq,
    Bool.not_eq_true', Bool.not_eq_true]

/-- What is in the way depends on the files along the way only. -/
theorem paving_congr (h : ∀ q ∈ visits w segments, fs.isFile q = fs'.isFile q) :
    fs.paving w segments = fs'.paving w segments := by
  induction segments generalizing w with
  | nil => rfl
  | cons s segments ih =>
    have hclear : fs.clear w s = fs'.clear w s := by
      by_cases hs : isIdle s ∨ s = ['.', '.']
      · have htrue : ∀ fs : FileSystem, fs.clear w s = true := by
          rintro fs
          rcases hs with hs | hs <;> simp [clear, hs]
        rw [htrue, htrue]
      · refine clear_congr (h _ (List.mem_cons_of_mem _ ?_))
        rw [enter_eq_append hs]
        cases segments <;> simp [visits]
    rw [paving, paving, hclear, ih fun q hq => h q (List.mem_cons_of_mem _ hq)]

section Step

theorem get?_enter_of_dots (hs : fs.Sound) (hw : fs.get? w = some .directory)
    (h : isIdle s ∨ s = ['.', '.']) :
    fs.get? (enter w s) = some .directory := by
  unfold enter
  split
  next => exact hw
  next hidle =>
    rw [if_pos (h.resolve_left hidle)]
    exact hs.above w (by rw [hw, Option.isSome_some])

lemma get?_lay (fs : FileSystem) (w : Place) (s : Segment) (q : Place) : (fs.lay w s).get? q =
    if q = enter w s ∧ fs.get? q = none then some .directory else fs.get? q := by
  unfold lay
  split
  next hnone =>
    rw [get?_put _ _ _ (ne_nil_of_get? (by simp [hnone] : fs.get? (enter w s) ≠ some .directory))]
    by_cases hq : q = enter w s
    · rw [if_pos hq, if_pos ⟨hq, hq ▸ hnone⟩]
    · rw [if_neg hq, if_neg fun h => hq h.1]
  next hsome =>
    rw [if_neg]
    rintro ⟨rfl, hnone⟩
    exact hsome hnone

theorem lay_of_directory (h : fs.get? (enter w s) = some .directory) : fs.lay w s = fs := by
  unfold lay
  rw [if_neg (by simp [h])]

@[simp] lemma workingDirectory_lay (fs : FileSystem) (w : Place) (s : Segment) :
    (fs.lay w s).workingDirectory = fs.workingDirectory := by
  unfold lay
  split <;> rfl

lemma get?_lay_of_directory (h : fs.get? q = some .directory) :
    (fs.lay w s).get? q = some .directory := by
  rw [get?_lay, if_neg (by simp [h]), h]

lemma Sound.lay (hs : fs.Sound) (hw : fs.get? w = some .directory) (s : Segment) :
    (fs.lay w s).Sound := by
  by_cases hdots : isIdle s ∨ s = ['.', '.']
  · rwa [lay_of_directory (get?_enter_of_dots hs hw hdots)]
  · unfold FileSystem.lay
    split
    next hnone =>
      rw [enter_eq_append hdots] at hnone ⊢
      exact hs.put hw (by simp [hnone]) _
    next => exact hs

/-- Where nothing is in the way a segment leads to a directory, once that is made. -/
theorem get?_lay_enter (hs : fs.Sound) (hw : fs.get? w = some .directory) (hclear : fs.clear w s) :
    (fs.lay w s).get? (enter w s) = some .directory := by
  by_cases hdots : isIdle s ∨ s = ['.', '.']
  · exact get?_lay_of_directory (get?_enter_of_dots hs hw hdots)
  · have hfile := ((clear_of_not hdots).mp hclear).2
    rw [get?_lay]
    rcases h : fs.get? (enter w s) with - | content | -
    · simp
    · exact absurd (isFile_iff.mpr ⟨content, h⟩) hfile
    · simp

lemma isFile_lay (fs : FileSystem) (w : Place) (s : Segment) (q : Place) :
    (fs.lay w s).isFile q = fs.isFile q := by
  unfold isFile
  rw [get?_lay]
  by_cases h : q = enter w s ∧ fs.get? q = none
  · rw [if_pos h, h.2]
  · rw [if_neg h]

theorem walk_singleton (hw : fs.get? w = some .directory) (s : Segment) : fs.walk w [s] =
    if isIdle s ∨ s = ['.', '.'] then .ok (enter w s) else fs.child w s := by
  rw [walk, if_neg (by simp [hw])]
  unfold enter
  by_cases hidle : isIdle s
  · rw [if_pos hidle, if_pos (.inl hidle), if_pos hidle]
    rfl
  · rw [if_neg hidle, if_neg hidle]
    by_cases hdots : s = ['.', '.']
    · rw [if_pos hdots, if_pos (.inr hdots), if_pos hdots]
      rfl
    · rw [if_neg hdots, if_neg (not_or.mpr ⟨hidle, hdots⟩)]
      cases fs.child w s <;> rfl

theorem walk_cons_eq (fs : FileSystem) (w : Place) (s : Segment) (segments : List Segment) :
    fs.walk w (s :: segments) = fs.walk w [s] >>= (fs.walk · segments) :=
  walk_append fs w [s] segments

lemma walk_of_clear (hs : fs.Sound) (hw : fs.get? w = some .directory) (hclear : fs.clear w s) :
    (fs.lay w s).walk w [s] = .ok (enter w s) := by
  have hthere := get?_lay_enter hs hw hclear
  rw [walk_singleton (get?_lay_of_directory hw)]
  split
  next => rfl
  next hdots =>
    rw [child_eq_ok_iff, hthere, enter_eq_append hdots]
    exact ⟨((clear_of_not hdots).mp hclear).1, rfl, rfl⟩

/-- A walk that ends at something ends at a directory or at a file, which is in the way. -/
theorem clear_of_walk (hs : fs.Sound) (hw : fs.get? w = some .directory)
    (hwalk : fs.walk w [s] = .ok q) :
    fs.clear w s ↔ fs.get? q = some .directory := by
  have hq := foldl_enter_of_walk hwalk
  rw [List.foldl_cons, List.foldl_nil] at hq
  by_cases hdots : isIdle s ∨ s = ['.', '.']
  · have hclear : fs.clear w s = true := by
      rcases hdots with hdots | hdots <;> simp [clear, hdots]
    rw [← hq]
    simp [hclear, get?_enter_of_dots hs hw hdots]
  · rw [walk_singleton hw, if_neg hdots, child_eq_ok_iff] at hwalk
    obtain ⟨hsize, -, hsome⟩ := hwalk
    rw [clear_of_not hdots, hq, isFile_iff]
    rcases h : fs.get? q with - | content | -
    · simp [h] at hsome
    · simp
    · simp [hsize]

theorem not_clear_of_walk_error {e : IoError} (hw : fs.get? w = some .directory)
    (hwalk : fs.walk w [s] = .error e) (he : e ≠ .notFound) : ¬ fs.clear w s := by
  rw [walk_singleton hw] at hwalk
  split at hwalk
  next => cases hwalk
  next hdots =>
    rw [clear_of_not hdots]
    rintro ⟨hsize, -⟩
    unfold child at hwalk
    rw [if_neg (Nat.not_lt.mpr hsize)] at hwalk
    split at hwalk
    next => cases hwalk
    next => exact he (Except.error.inj hwalk).symm

end Step

theorem pave_append (fs : FileSystem) (w : Place) (front back : List Segment) :
    fs.pave w (front ++ back) =
    if (fs.pave w front).2 then (fs.pave w front).1.pave (front.foldl enter w) back
      else fs.pave w front := by
  induction front generalizing fs w with
  | nil => rfl
  | cons s front ih =>
    rw [List.cons_append, pave, pave, List.foldl_cons]
    split
    next => exact ih _ _
    next => rfl

/-- What is there after directories were made, from a directory on. -/
theorem pave_spec (hs : fs.Sound) (hw : fs.get? w = some .directory) (segments : List Segment) :
    (fs.pave w segments).1.Sound ∧ (fs.pave w segments).1.workingDirectory = fs.workingDirectory ∧
    (fs.pave w segments).2 = (fs.paving w segments).2 ∧
    ∀ q, (fs.pave w segments).1.get? q =
      if q ∈ (fs.paving w segments).1 ∧ fs.get? q = none then some .directory else fs.get? q := by
  induction segments generalizing fs w with
  | nil => exact ⟨hs, rfl, rfl, fun q => by simp [pave, paving]⟩
  | cons s segments ih =>
    rw [pave, paving]
    split
    next hclear =>
      obtain ⟨hsound, hworking, hall, hget⟩ := ih (hs.lay hw s) (get?_lay_enter hs hw hclear)
      have hpaving : (fs.lay w s).paving (enter w s) segments = fs.paving (enter w s) segments :=
        paving_congr fun q _ => isFile_lay fs w s q
      rw [hpaving] at hall hget
      refine ⟨hsound, by rw [hworking, workingDirectory_lay], hall, fun q => ?_⟩
      rw [hget, get?_lay]
      by_cases hnone : fs.get? q = none
      · by_cases hq : q = enter w s
        · simp [hq, hq ▸ hnone]
        · simp [hq, hnone]
      · simp [hnone]
    next => exact ⟨hs, rfl, rfl, fun q => by simp⟩

lemma get?_pave_of_directory (hs : fs.Sound) (hw : fs.get? w = some .directory)
    (segments : List Segment) (hq : fs.get? q = some .directory) :
    (fs.pave w segments).1.get? q = some .directory := by
  rw [(pave_spec hs hw segments).2.2.2, if_neg (by simp [hq]), hq]

/-- All that was needed is a directory afterwards. -/
theorem get?_pave_of_mem (hs : fs.Sound) (hw : fs.get? w = some .directory)
    (hq : q ∈ (fs.paving w segments).1) :
    (fs.pave w segments).1.get? q = some .directory := by
  induction segments generalizing fs w with
  | nil => exact absurd hq List.not_mem_nil
  | cons s segments ih =>
    rw [paving] at hq
    rw [pave]
    split at hq
    next hclear =>
      rw [if_pos hclear]
      have hnext := get?_lay_enter hs hw hclear
      rcases List.mem_cons.mp hq with rfl | hq
      · exact get?_pave_of_directory (hs.lay hw s) hnext segments hnext
      · refine ih (hs.lay hw s) hnext ?_
        rwa [paving_congr fun q _ => isFile_lay fs w s q]
    next => exact absurd hq List.not_mem_nil

/-- Where nothing is in the way, the segments can be followed afterwards. -/
theorem walk_pave (hs : fs.Sound) (hw : fs.get? w = some .directory) (h : (fs.pave w segments).2) :
    (fs.pave w segments).1.walk w segments = .ok (segments.foldl enter w) ∧
      (fs.pave w segments).1.get? (segments.foldl enter w) = some .directory := by
  induction segments generalizing fs w with
  | nil => exact ⟨rfl, hw⟩
  | cons s segments ih =>
    rw [pave] at h ⊢
    split at h
    next hclear =>
      rw [if_pos hclear, List.foldl_cons]
      have hnext := get?_lay_enter hs hw hclear
      obtain ⟨hwalk, hlast⟩ := ih (hs.lay hw s) hnext h
      have hkeep : ∀ q, (fs.lay w s).get? q = some .directory →
          ((fs.lay w s).pave (enter w s) segments).1.get? q = some .directory :=
        fun q => get?_pave_of_directory (hs.lay hw s) hnext segments
      refine ⟨?_, hlast⟩
      rw [walk_cons_eq]
      refine bind_eq_ok_iff.mpr ⟨enter w s, ?_, hwalk⟩
      exact walk_of_isSome hkeep (walk_of_clear hs hw hclear)
        (by rw [hkeep _ hnext, Option.isSome_some])
    next => cases h

/-- Where all is there, nothing is made. -/
theorem pave_of_walk (hs : fs.Sound) (hw : fs.get? w = some .directory)
    (h : fs.walk w segments = .ok q) :
    (fs.pave w segments).1 = fs ∧ ((fs.pave w segments).2 ↔ fs.get? q = some .directory) := by
  induction segments generalizing w with
  | nil =>
    obtain rfl := Except.ok.inj h
    simp [pave, hw]
  | cons s segments ih =>
    rw [walk_cons_eq] at h
    obtain ⟨r, hr, h⟩ := bind_eq_ok_iff.mp h
    obtain rfl : enter w s = r := foldl_enter_of_walk hr
    have hclear := clear_of_walk hs hw hr
    rw [pave]
    split
    next hyes =>
      have hnext := hclear.mp hyes
      rw [lay_of_directory hnext]
      exact ih hnext h
    next hno =>
      refine ⟨rfl, ?_⟩
      cases segments with
      | nil =>
        obtain rfl := Except.ok.inj h
        simpa using fun hdirectory => hno (hclear.mpr hdirectory)
      | cons t segments => exact absurd (hclear.mpr (directory_of_walk_cons h)) hno

/-- What is in the way of a walk is in the way of making directories, unless something is
missing. -/
theorem pave_of_walk_error {e : IoError} (hs : fs.Sound) (hw : fs.get? w = some .directory)
    (h : fs.walk w segments = .error e) (he : e ≠ .notFound) :
    fs.pave w segments = (fs, false) := by
  induction segments generalizing w with
  | nil => cases h
  | cons s segments ih =>
    rw [walk_cons_eq] at h
    rw [pave]
    cases hfirst : fs.walk w [s] with
    | error e' =>
      rw [hfirst] at h
      obtain rfl : e' = e := Except.error.inj h
      rw [if_neg (not_clear_of_walk_error hw hfirst he)]
    | ok r =>
      rw [hfirst] at h
      obtain rfl : enter w s = r := foldl_enter_of_walk hfirst
      have hclear := clear_of_walk hs hw hfirst
      split
      next hyes =>
        have hnext := hclear.mp hyes
        rw [lay_of_directory hnext]
        exact ih hnext h
      next => rfl

end FeatureDepot.FileSystem
