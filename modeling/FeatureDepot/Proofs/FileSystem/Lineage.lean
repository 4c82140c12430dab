import FeatureDepot.Proofs.Disk
import FeatureDepot.Proofs.FileSystem.Paving

/-! Making directories from the inside out, which is how it is done, comes to the same as making
them from the outside in. So what is made for a file is told by what is in the way of its
directories. -/
namespace FeatureDepot
open FeatureDepot.Path Batch

namespace FileSystem

variable {fs fs' : FileSystem} {p : Path} {w q d : Place} {s : Segment}
  {segments front back : List Segment}

/-- Makes a directory in one that is there, or finds it there. -/
def tryDirectory (fs : FileSystem) (p : Path) : FileSystem × Except IoError Unit :=
  match fs.makeDirectory p with
  | .ok made => (made, .ok ())
  | .error e => (fs, if fs.isDirectory p then .ok () else .error e)

/-- An operation ends as making directories from the outside in does. -/
def Ends (result : FileSystem × Except IoError Unit) (paved : FileSystem × Bool) : Prop :=
  result.1 = paved.1 ∧ (result.2 = .ok () ↔ paved.2)

lemma makeLineage_cons (fs : FileSystem) (p : Path) (above : List Path) :
    fs.makeLineage (p :: above) =
    if fs.makeDirectory p = .error .notFound then
      match fs.makeLineage above with
      | (fs, .error e) => (fs, .error e)
      | (fs, .ok ()) => fs.tryDirectory p
    else fs.tryDirectory p := by
  rw [makeLineage]
  unfold tryDirectory
  cases h : fs.makeDirectory p with
  | ok made => rfl
  | error e =>
    cases e with
    | notFound =>
      refine Eq.trans ?_ (if_pos rfl).symm
      rcases fs.makeLineage above with ⟨fs, e | _⟩
      · rfl
      · cases fs.makeDirectory p <;> rfl
    | _ => rfl

lemma target_of_walk (hcheck : checkPath p = .ok ()) (hsegments : p.segments = front ++ [s])
    (hs : s ≠ []) :
    fs.target p = fs.walk (fs.base p) front >>= fun d =>
      if fs.get? d ≠ some .directory then .error .notADirectory
      else .ok ⟨d, if s = ['.'] ∨ s = ['.', '.'] then none else some s, false⟩ := by
  have htrim : (p.segments.reverse.dropWhile (· == [])).reverse = front ++ [s] := by
    rw [hsegments, List.reverse_append, List.reverse_singleton, List.singleton_append,
      List.dropWhile_cons_of_neg (by simpa using hs), List.reverse_cons, List.reverse_reverse]
  have hname : (some s).filter (fun s => s != ['.'] && s != ['.', '.']) =
      if s = ['.'] ∨ s = ['.', '.'] then none else some s := by
    by_cases hdot : s = ['.']
    · simp [hdot]
    · by_cases hdots : s = ['.', '.'] <;> simp [hdot, hdots, Option.filter]
  unfold target
  rw [hcheck]
  dsimp only [bind, Except.bind]
  rw [htrim, List.dropLast_concat, List.getLast?_concat, hname, hsegments, List.getLast?_concat]
  have hslashed : (some s == some []) = false := by simpa using hs
  rw [hslashed]

lemma isDirectory_of_walk (hcheck : checkPath p = .ok ()) (hsegments : p.segments = front ++ [s]) :
    fs.isDirectory p = match fs.walk (fs.base p) front >>= (fs.walk · [s]) with
      | .ok q => fs.get? q == some .directory
      | .error _ => false := by
  unfold isDirectory locate
  rw [hcheck, hsegments]
  dsimp only [bind, Except.bind]
  rw [walk_append]
  rfl

lemma makeDirectory_of_target_error {e : IoError} (h : fs.target p = .error e) :
    fs.makeDirectory p = .error e := by
  unfold makeDirectory
  rw [h]
  rfl

lemma pave_singleton (fs : FileSystem) (d : Place) (s : Segment) :
    fs.pave d [s] = if fs.clear d s then (fs.lay d s, true) else (fs, false) := rfl

lemma not_lead_of_not_dots (hs : s ≠ []) (hdots : ¬ (s = ['.'] ∨ s = ['.', '.'])) :
    ¬ (isIdle s ∨ s = ['.', '.']) := by
  obtain ⟨hdot, hdots⟩ := not_or.mp hdots
  simp [isIdle, hs, hdot, hdots]

/-! A path that leads into a directory that is there. -/

section There

variable (hcheck : checkPath p = .ok ()) (hsegments : p.segments = front ++ [s]) (hs : s ≠ [])
  (hwalk : fs.walk (fs.base p) front = .ok d) (hd : fs.get? d = some .directory)
include hcheck hsegments hwalk

lemma isDirectory_of_there : fs.isDirectory p = match fs.walk d [s] with
    | .ok q => fs.get? q == some .directory
    | .error _ => false := by
  rw [isDirectory_of_walk hcheck hsegments, hwalk]
  rfl

include hs hd

lemma target_of_there :
    fs.target p = .ok ⟨d, if s = ['.'] ∨ s = ['.', '.'] then none else some s, false⟩ := by
  rw [target_of_walk hcheck hsegments hs, hwalk]
  exact if_neg (by simp [hd])

/-- What is there is not made. -/
theorem makeDirectory_of_walk (h : fs.walk d [s] = .ok q) :
    fs.makeDirectory p = .error .alreadyExists := by
  unfold makeDirectory
  rw [target_of_there hcheck hsegments hs hwalk hd]
  by_cases hdots : s = ['.'] ∨ s = ['.', '.']
  · rw [if_pos hdots]
    rfl
  · rw [walk_singleton hd, if_neg (not_lead_of_not_dots hs hdots)] at h
    rw [if_neg hdots]
    dsimp only [bind, Except.bind]
    rw [h]

/-- What is missing is made; nothing is made where nothing can be. -/
theorem makeDirectory_of_child_error {e : IoError} (hdots : ¬ (s = ['.'] ∨ s = ['.', '.']))
    (h : fs.child d s = .error e) :
    fs.makeDirectory p = if e = .notFound then .ok (fs.put (d ++ [s]) .directory)
      else .error e := by
  unfold makeDirectory
  rw [target_of_there hcheck hsegments hs hwalk hd, if_neg hdots]
  dsimp only [bind, Except.bind]
  rw [h]
  cases e <;> rfl

/-- Dots lead to a directory that is there. -/
theorem tryDirectory_of_dots (hsound : fs.Sound) (hdots : s = ['.'] ∨ s = ['.', '.']) :
    fs.makeDirectory p ≠ .error .notFound ∧ Ends (fs.tryDirectory p) (fs.pave d [s]) := by
  have hlead : isIdle s ∨ s = ['.', '.'] := hdots.imp_left fun h => by rw [h]; rfl
  have hthrough := (walk_singleton hd s).trans (if_pos hlead)
  have hdirectory := get?_enter_of_dots hsound hd hlead
  have hclear := clear_of_walk hsound hd hthrough
  have hmake := makeDirectory_of_walk hcheck hsegments hs hwalk hd hthrough
  have hthere := isDirectory_of_there hcheck hsegments hwalk
  rw [hthrough] at hthere
  rw [pave_singleton, if_pos (hclear.mpr hdirectory), lay_of_directory hdirectory]
  unfold Ends tryDirectory
  rw [hmake, hthere]
  simp [hdirectory]

/-- What is there is a directory, or in the way of one. -/
theorem tryDirectory_of_child (hsound : fs.Sound) (hdots : ¬ (s = ['.'] ∨ s = ['.', '.']))
    (h : fs.child d s = .ok q) :
    fs.makeDirectory p ≠ .error .notFound ∧ Ends (fs.tryDirectory p) (fs.pave d [s]) := by
  have hlead := not_lead_of_not_dots hs hdots
  have hthrough := (walk_singleton hd s).trans ((if_neg hlead).trans h)
  have hclear := clear_of_walk hsound hd hthrough
  have hmake := makeDirectory_of_walk hcheck hsegments hs hwalk hd hthrough
  have hthere := isDirectory_of_there hcheck hsegments hwalk
  obtain ⟨-, hq, -⟩ := child_eq_ok_iff.mp h
  have hlay : fs.get? q = some .directory → fs.lay d s = fs := fun h =>
    lay_of_directory (by rwa [enter_eq_append hlead, ← hq])
  rw [hthrough] at hthere
  rw [pave_singleton]
  unfold Ends tryDirectory
  rw [hmake, hthere]
  by_cases hdirectory : fs.get? q = some .directory
  · simp [hclear, hdirectory, hlay hdirectory]
  · simp [hclear, hdirectory]

lemma tryDirectory_of_missing (hdots : ¬ (s = ['.'] ∨ s = ['.', '.']))
    (h : fs.child d s = .error .notFound) :
    fs.makeDirectory p ≠ .error .notFound ∧ Ends (fs.tryDirectory p) (fs.pave d [s]) := by
  have hlead := not_lead_of_not_dots hs hdots
  have hmake := makeDirectory_of_child_error hcheck hsegments hs hwalk hd hdots h
  obtain ⟨hsize, hnone⟩ := child_eq_notFound_iff.mp h
  have hfile : ¬ fs.isFile (d ++ [s]) := by simp [isFile, hnone]
  have hclear : fs.clear d s := (clear_of_not hlead).mpr ⟨hsize, by rwa [enter_eq_append hlead]⟩
  have hlay : fs.lay d s = fs.put (d ++ [s]) .directory := by
    unfold lay
    rw [enter_eq_append hlead, if_pos hnone]
  rw [if_pos rfl] at hmake
  rw [pave_singleton, if_pos hclear, hlay]
  unfold Ends tryDirectory
  rw [hmake]
  simp

lemma tryDirectory_of_child_error {e : IoError} (hdots : ¬ (s = ['.'] ∨ s = ['.', '.']))
    (h : fs.child d s = .error e) (he : e ≠ .notFound) :
    fs.makeDirectory p ≠ .error .notFound ∧ Ends (fs.tryDirectory p) (fs.pave d [s]) := by
  have hnowhere := (walk_singleton hd s).trans ((if_neg (not_lead_of_not_dots hs hdots)).trans h)
  have hclear := not_clear_of_walk_error hd hnowhere he
  have hmake := makeDirectory_of_child_error hcheck hsegments hs hwalk hd hdots h
  have hthere := isDirectory_of_there hcheck hsegments hwalk
  rw [hnowhere] at hthere
  rw [if_neg he] at hmake
  rw [pave_singleton, if_neg hclear]
  unfold Ends tryDirectory
  rw [hmake, hthere]
  simp [he]

/-- In a directory that is there, making one comes to the same as from the outside. -/
theorem tryDirectory_ends (hsound : fs.Sound) :
    fs.makeDirectory p ≠ .error .notFound ∧ Ends (fs.tryDirectory p) (fs.pave d [s]) := by
  by_cases hdots : s = ['.'] ∨ s = ['.', '.']
  · exact tryDirectory_of_dots hcheck hsegments hs hwalk hd hsound hdots
  · cases hchild : fs.child d s with
    | ok q => exact tryDirectory_of_child hcheck hsegments hs hwalk hd hsound hdots hchild
    | error e =>
      by_cases he : e = .notFound
      · exact tryDirectory_of_missing hcheck hsegments hs hwalk hd hdots (he ▸ hchild)
      · exact tryDirectory_of_child_error hcheck hsegments hs hwalk hd hdots hchild he

end There

/-- One more directory, after those above it. -/
theorem makeLineage_cons_ends {above : List Path} (hs : fs.Sound) (hcheck : checkPath p = .ok ())
    (hsegments : p.segments = front ++ [s]) (hne : s ≠ [])
    (habove : Ends (fs.makeLineage above) (fs.pave (fs.base p) front)) :
    Ends (fs.makeLineage (p :: above)) (fs.pave (fs.base p) (front ++ [s])) := by
  have hw := hs.base p
  have htarget : fs.target p = _ := target_of_walk hcheck hsegments hne
  rw [makeLineage_cons, pave_append]
  cases hwalk : fs.walk (fs.base p) front with
  | error e =>
    rw [hwalk] at htarget
    have hmake : fs.makeDirectory p = .error e := makeDirectory_of_target_error htarget
    rw [hmake]
    by_cases he : e = .notFound
    · rw [if_pos (by rw [he])]
      obtain ⟨hstate, houtcome⟩ := habove
      rcases hresult : fs.makeLineage above with ⟨made, e' | _⟩
      · rw [hresult] at hstate houtcome
        have hfalse : ¬ (fs.pave (fs.base p) front).2 := by simpa using houtcome
        rw [if_neg hfalse]
        exact ⟨hstate, by simpa using hfalse⟩
      · rw [hresult] at hstate houtcome
        have htrue : (fs.pave (fs.base p) front).2 := houtcome.mp rfl
        obtain ⟨hsound, hworking, -⟩ := pave_spec hs hw front
        obtain ⟨hlast, hdirectory⟩ := walk_pave hs hw htrue
        obtain rfl : made = (fs.pave (fs.base p) front).1 := hstate
        rw [if_pos htrue]
        exact (tryDirectory_ends hcheck hsegments hne (by rw [base_congr hworking, hlast])
          hdirectory hsound).2
    · rw [if_neg (by simpa using he), pave_of_walk_error hs hw hwalk he, if_neg Bool.false_ne_true]
      have hthere : fs.isDirectory p = false := by
        rw [isDirectory_of_walk hcheck hsegments, hwalk]
        rfl
      unfold tryDirectory
      rw [hmake, hthere]
      exact ⟨rfl, by simp⟩
  | ok d =>
    obtain ⟨hsame, hall⟩ := pave_of_walk hs hw hwalk
    by_cases hd : fs.get? d = some .directory
    · obtain ⟨hfound, hends⟩ := tryDirectory_ends hcheck hsegments hne hwalk hd hs
      rw [if_neg hfound, if_pos (hall.mpr hd), hsame, foldl_enter_of_walk hwalk]
      exact hends
    · rw [hwalk] at htarget
      have hmake : fs.makeDirectory p = .error .notADirectory :=
        makeDirectory_of_target_error (htarget.trans (if_pos hd))
      have hthere : fs.isDirectory p = false := by
        rw [isDirectory_of_walk hcheck hsegments, hwalk]
        dsimp only [bind, Except.bind]
        rw [walk, if_pos hd]
      rw [hmake, if_neg (by simp), if_neg (mt hall.mp hd)]
      unfold tryDirectory
      rw [hmake, hthere]
      exact ⟨hsame.symm, by simpa using mt hall.mp hd⟩

theorem checkPath_eq_ok_iff : checkPath p = .ok () ↔
    '\x00' ∉ p.text.toList ∧ p.text.toList ≠ [] ∧ Text.size p.text.toList < maxPath := by
  unfold checkPath
  have hempty : p.text.isEmpty ↔ p.text.toList = [] := by simp
  by_cases hnul : '\x00' ∈ p.text.toList
  · simp [hnul]
  · by_cases hnil : p.text.toList = []
    · simp [hnil, hempty.mpr hnil]
    · have hfull : p.text.isEmpty = false := by simpa using mt hempty.mp hnil
      by_cases hsize : maxPath ≤ Text.size p.text.toList
      · simp [hnul, hfull, hsize]
      · simp [hnul, hnil, hfull, hsize, Nat.not_le.mp hsize]

theorem size_append (cs ds : List Char) : Text.size (cs ++ ds) = Text.size cs + Text.size ds := by
  induction cs with
  | nil => simp [Text.size]
  | cons c cs ih =>
    have hstep : ∀ es : List Char, Text.size (c :: es) = c.utf8Size + Text.size es := fun _ => rfl
    rw [List.cons_append, hstep, hstep, ih, Nat.add_assoc]

lemma isPrefix_intercalate (hne : front ≠ []) (back : List Segment) :
    ['/'].intercalate front <+: ['/'].intercalate (front ++ back) := by
  induction front with
  | nil => exact absurd rfl hne
  | cons s front ih =>
    cases front with
    | nil =>
      cases back with
      | nil => exact List.prefix_refl _
      | cons t back =>
        rw [List.singleton_append, List.intercalate_cons_cons, List.intercalate_singleton,
          List.append_assoc]
        exact List.prefix_append _ _
    | cons t front =>
      rw [List.cons_append, List.cons_append, List.intercalate_cons_cons,
        List.intercalate_cons_cons]
      exact (List.prefix_append_right_inj _).mpr (ih (by simp))

lemma segments_front (hsegments : p.segments = front ++ s :: back) :
    (ofSegments (front ++ [s])).segments = front ++ [s] := by
  refine segments_ofSegments (by simp) fun t ht => not_mem_of_mem_segments (p := p) ?_
  rw [hsegments, ← List.singleton_append, ← List.append_assoc]
  exact List.mem_append_left _ ht

/-- A path that can be followed has no part that is too long to be followed. -/
theorem checkPath_front (hcheck : checkPath p = .ok ())
    (hsegments : p.segments = front ++ s :: back) (hs : s ≠ []) :
    checkPath (ofSegments (front ++ [s])) = .ok () := by
  obtain ⟨hnul, -, hsize⟩ := checkPath_eq_ok_iff.mp hcheck
  have htext : p.text.toList = ['/'].intercalate (front ++ [s] ++ back) := by
    rw [List.append_assoc, List.singleton_append, ← hsegments]
    exact (List.intercalate_splitOn '/').symm
  obtain ⟨rest, hrest⟩ := isPrefix_intercalate (show front ++ [s] ≠ [] by simp) back
  rw [← htext] at hrest
  have hparts := segments_front hsegments
  rw [checkPath_eq_ok_iff]
  rw [ofSegments, Path.segments, String.toList_ofList] at hparts
  rw [ofSegments, String.toList_ofList]
  rw [← hrest] at hnul hsize
  rw [size_append] at hsize
  refine ⟨fun h => hnul (List.mem_append_left _ h), ?_, by omega⟩
  intro hnil
  rw [hnil] at hparts
  have hlast := congrArg List.getLast? hparts
  rw [List.getLast?_concat] at hlast
  exact hs (Option.some.inj hlast).symm

lemma base_front (fs : FileSystem) (hsegments : p.segments = front ++ s :: back) (hs : s ≠ []) :
    fs.base (ofSegments (front ++ [s])) = fs.base p := by
  have habsolute : (ofSegments (front ++ [s])).isAbsolute = p.isAbsolute := by
    rw [Bool.eq_iff_iff, isAbsolute_iff, isAbsolute_iff, segments_front hsegments, hsegments]
    have hhead : (front ++ [s]).head? = (front ++ s :: back).head? := by cases front <;> rfl
    have hlong : ∀ rest : List Segment, front ++ s :: rest ≠ [[]] := by
      intro rest h
      have hmem : s ∈ ([[]] : List Segment) := h ▸ List.mem_append_right _ List.mem_cons_self
      exact hs (List.mem_singleton.mp hmem)
    rw [hhead]
    exact and_congr_right fun _ => ⟨fun _ => hlong _, fun _ => hlong _⟩
  unfold FileSystem.base
  rw [habsolute]

lemma pave_singleton_of_isIdle (hw : fs.get? w = some .directory) (hs : isIdle s) :
    fs.pave w [s] = (fs, true) := by
  have hclear : fs.clear w s = true := by simp [clear, hs]
  have henter : enter w s = w := enter_of_isIdle w hs
  rw [pave, if_pos hclear, henter, lay_of_directory (henter.symm ▸ hw)]
  rfl

/-- Idle segments ask for no directories. -/
theorem pave_concat_of_isIdle (hs : fs.Sound) (hw : fs.get? w = some .directory)
    (hidle : isIdle s) :
    fs.pave w (front ++ [s]) = fs.pave w front := by
  rw [pave_append]
  split
  next h =>
    rw [pave_singleton_of_isIdle (walk_pave hs hw h).2 hidle]
    exact Prod.ext rfl h.symm
  next => rfl

/-- The directories above a path are made as from the outside. -/
theorem makeLineage_prefixes_ends (hs : fs.Sound) (hcheck : checkPath p = .ok ())
    (hsegments : p.segments = front ++ back) :
    Ends (fs.makeLineage (prefixes front.reverse)) (fs.pave (fs.base p) front) := by
  have hw := hs.base p
  induction front using List.reverseRecOn generalizing back with
  | nil => exact ⟨rfl, by simp [prefixes, makeLineage, pave]⟩
  | append_singleton front s ih =>
    rw [List.append_assoc, List.singleton_append] at hsegments
    have habove := ih hsegments
    have hnext : s ≠ [] →
        Ends (fs.makeLineage (ofSegments (front ++ [s]) :: prefixes front.reverse))
          (fs.pave (fs.base p) (front ++ [s])) := by
      intro hne
      have hbase := base_front fs hsegments hne
      rw [← hbase]
      exact makeLineage_cons_ends hs (checkPath_front hcheck hsegments hne)
        (segments_front hsegments) hne (by rw [hbase]; exact habove)
    rw [List.reverse_append, List.reverse_singleton, List.singleton_append]
    cases hfront : front.reverse with
    | nil =>
      obtain rfl := List.reverse_eq_nil_iff.mp hfront
      rw [prefixes]
      split
      next hnil =>
        rw [List.nil_append, pave_singleton_of_isIdle hw (by rw [hnil]; rfl)]
        exact ⟨rfl, by simp [makeLineage]⟩
      next hne => exact hnext hne
    | cons t above =>
      rw [prefixes.eq_3 _ _ (by simp)]
      split
      next hidle =>
        rw [← hfront, pave_concat_of_isIdle hs hw hidle]
        exact habove
      next hidle =>
        have hne : s ≠ [] := by
          rintro rfl
          exact hidle rfl
        rw [← hfront, List.reverse_cons, List.reverse_reverse]
        exact hnext hne

/-- The lineage of a trimmed path is the path, and what is above its last segment. -/
theorem exists_lineage_eq (htrim : trim p.segments = p.segments) :
    ∃ front s, p.segments = front ++ [s] ∧ s ≠ [] ∧ p.lineage = p :: prefixes front.reverse := by
  obtain ⟨front, s, hsegments⟩ :=
    (List.eq_nil_or_concat p.segments).resolve_left (List.splitOn_ne_nil _ _)
  rw [List.concat_eq_append] at hsegments
  refine ⟨front, s, hsegments, ?_, ?_⟩
  · rintro rfl
    rcases trim_cases p.segments with h | h | ⟨front', t, h, ht⟩
    · rw [htrim, hsegments] at h
      simp at h
    · rw [htrim, hsegments] at h
      have hlast := congrArg List.getLast? h
      rw [List.getLast?_concat] at hlast
      cases hlast
    · rw [htrim, hsegments] at h
      obtain ⟨-, h⟩ := List.append_inj' h rfl
      obtain rfl := List.singleton_inj.mp h
      simp [isIdle] at ht
  · unfold lineage
    rw [htrim, hsegments, List.reverse_append, List.reverse_singleton, List.singleton_append]

/-- Directories are made as from the outside, for a path that is trimmed. -/
theorem makeDirectories_ends (hs : fs.Sound) (hcheck : checkPath p = .ok ())
    (htrim : trim p.segments = p.segments) :
    Ends (fs.makeDirectories p) (fs.pave (fs.base p) p.segments) := by
  obtain ⟨front, s, hsegments, hne, hlineage⟩ := exists_lineage_eq htrim
  unfold makeDirectories
  rw [hlineage, hsegments]
  exact makeLineage_cons_ends hs hcheck hsegments hne
    (makeLineage_prefixes_ends hs hcheck hsegments)

lemma pave_of_isIdle (hw : fs.get? w = some .directory) (h : ∀ s ∈ segments, isIdle s) :
    fs.pave w segments = (fs, true) := by
  induction segments with
  | nil => rfl
  | cons s segments ih =>
    have hfirst := pave_singleton_of_isIdle hw (h s List.mem_cons_self)
    rw [← List.singleton_append, pave_append, hfirst, if_pos rfl, List.foldl_cons, List.foldl_nil,
      enter_of_isIdle w (h s List.mem_cons_self)]
    exact ih fun t ht => h t (List.mem_cons_of_mem _ ht)

/-- The parent of a path is trimmed, or nothing is left of it. -/
theorem trim_parent? {directory : Path} (h : p.parent? = some directory) :
    trim directory.segments = [] ∨ trim directory.segments = directory.segments := by
  unfold parent? at h
  split at h
  next => cases h
  next t rest hrest =>
    split at h
    next =>
      obtain rfl := Option.some.inj h
      cases p.isAbsolute
      · exact .inl (by decide)
      · exact .inl (by decide)
    next hfront =>
      obtain rfl := Option.some.inj h
      have hslash : ∀ u ∈ trim (t :: rest).dropLast, '/' ∉ u := by
        intro u hu
        have hmem : u ∈ trim p.segments := hrest ▸ List.mem_of_mem_dropLast (mem_of_mem_trim hu)
        exact not_mem_of_mem_trim hmem
      refine .inr ?_
      rw [segments_ofSegments hfront hslash, trim_trim]

/-- The directories that a file needs, up to what is in their way, and whether nothing is. -/
def ground (fs : FileSystem) (p : Path) : List Place × Bool :=
  match p.parent? with
  | none => ([], true)
  | some directory =>
    if trim directory.segments = [] ∨ (checkPath directory).isOk then
      fs.paving (fs.base directory) directory.segments
    else ([], false)

end FileSystem

namespace Disk
open FileSystem

variable {fs : FileSystem} {p directory : Path} {q : Place}

theorem isOk_iff {ε : Type} {x : Except ε Unit} : x.isOk ↔ x = .ok () := by
  cases x with
  | error e => exact ⟨nofun, nofun⟩
  | ok _ => exact ⟨fun _ => rfl, fun _ => rfl⟩

lemma mapError_eq_ok_iff {α ε ε' : Type} {x : Except ε α} {f : ε → ε'} {a : α} :
    x.mapError f = .ok a ↔ x = .ok a := by
  cases x with
  | error e => exact ⟨nofun, nofun⟩
  | ok b => exact ⟨fun h => congrArg _ (Except.ok.inj h), fun h => congrArg _ (Except.ok.inj h)⟩

/-- Making the directories of a file, as from the outside. -/
theorem makeRoom_ends (hs : fs.Sound) (hp : p.parent? = some directory)
    (h : trim directory.segments = [] ∨ checkPath directory = .ok ()) :
    (makeRoom p fs).2 = (fs.pave (fs.base directory) directory.segments).1 ∧
      ((makeRoom p fs).1 = .ok () ↔ (fs.pave (fs.base directory) directory.segments).2) := by
  have hends : Ends (fs.makeDirectories directory)
      (fs.pave (fs.base directory) directory.segments) := by
    by_cases hnil : trim directory.segments = []
    · obtain ⟨tail, htail, hsegments⟩ := exists_eq_trim_append directory.segments
      rw [hnil, List.nil_append] at hsegments
      rw [pave_of_isIdle (hs.base directory) (hsegments ▸ htail)]
      unfold makeDirectories lineage
      rw [hnil]
      exact ⟨rfl, by simp [makeLineage]⟩
    · exact makeDirectories_ends hs (h.resolve_left hnil) ((trim_parent? hp).resolve_left hnil)
  obtain ⟨hstate, houtcome⟩ := hends
  rw [makeRoom_eq, hp]
  exact ⟨hstate, mapError_eq_ok_iff.trans houtcome⟩

/-- A path that cannot be followed gets no directories. -/
theorem makeRoom_of_checkPath_error (fs : FileSystem) (hp : p.parent? = some directory)
    (hnil : trim directory.segments ≠ []) (hcheck : checkPath directory ≠ .ok ()) :
    (makeRoom p fs).2 = fs ∧ (makeRoom p fs).1 ≠ .ok () := by
  obtain ⟨e, he⟩ : ∃ e, checkPath directory = .error e := by
    cases h : checkPath directory with
    | ok _ => exact absurd h hcheck
    | error e => exact ⟨e, rfl⟩
  have hnot : e ≠ .notFound := by
    rintro rfl
    unfold checkPath at he
    split at he
    next => cases he
    next =>
      split at he
      next hempty =>
        have hsegments : directory.segments = [[]] := by
          unfold Path.segments
          rw [String.isEmpty_iff.mp hempty]
          rfl
        exact hnil (by rw [hsegments]; rfl)
      next => split at he <;> cases he
  have hmake : fs.makeDirectory directory = .error e := by
    unfold makeDirectory target
    rw [he]
    rfl
  have hthere : fs.isDirectory directory = false := by
    unfold isDirectory locate
    rw [he]
    rfl
  obtain ⟨above, habove⟩ : ∃ above, directory.lineage = directory :: above := by
    unfold lineage
    cases h : (trim directory.segments).reverse with
    | nil => exact absurd (List.reverse_eq_nil_iff.mp h) hnil
    | cons s above => exact ⟨_, rfl⟩
  have hall : fs.makeDirectories directory = (fs, .error e) := by
    unfold makeDirectories
    rw [habove, makeLineage_cons, hmake, if_neg (by simpa using hnot)]
    unfold tryDirectory
    rw [hmake, hthere]
    rfl
  rw [makeRoom_eq, hp]
  dsimp only
  rw [hall]
  exact ⟨rfl, nofun⟩

/-- Where the directory of a file can be reached, none is made for it. -/
theorem makeRoom_of_reaches {d : Place} (hp : p.parent? = some directory)
    (h : fs.Reaches directory d) :
    (makeRoom p fs).2 = fs := by
  by_cases hnil : trim directory.segments = []
  · rw [makeRoom_eq, hp]
    dsimp only
    unfold makeDirectories lineage
    rw [hnil]
    rfl
  by_cases hcheck : checkPath directory = .ok ()
  · obtain ⟨front, s, hsegments, hs, hlineage⟩ :=
      exists_lineage_eq ((trim_parent? hp).resolve_left hnil)
    have hwalk := h.1
    rw [hsegments, stem_concat _ hs, walk_append] at hwalk
    obtain ⟨upper, hfront, hlast⟩ := Batch.bind_eq_ok_iff.mp hwalk
    have hmake :=
      makeDirectory_of_walk hcheck hsegments hs hfront (directory_of_walk_cons hlast) hlast
    rw [makeRoom_eq, hp]
    dsimp only
    unfold makeDirectories
    rw [hlineage, makeLineage_cons, hmake, if_neg (by simp)]
    unfold tryDirectory
    rw [hmake]
  · exact (makeRoom_of_checkPath_error fs hp hnil hcheck).1

/-- What making the directories of a file leaves. -/
theorem makeRoom_spec (hs : fs.Sound) (p : Path) : (makeRoom p fs).2.Sound ∧
    (makeRoom p fs).2.workingDirectory = fs.workingDirectory ∧
    ((makeRoom p fs).1 = .ok () ↔ (fs.ground p).2) ∧
    ∀ q, (makeRoom p fs).2.get? q =
      if q ∈ (fs.ground p).1 ∧ fs.get? q = none then some .directory else fs.get? q := by
  cases hp : p.parent? with
  | none =>
    have hground : fs.ground p = ([], true) := by
      unfold ground
      rw [hp]
    rw [makeRoom_eq, hp, hground]
    exact ⟨hs, rfl, by simp, by simp⟩
  | some directory =>
    by_cases h : trim directory.segments = [] ∨ (checkPath directory).isOk
    · have hground : fs.ground p = fs.paving (fs.base directory) directory.segments := by
        unfold ground
        rw [hp]
        exact if_pos h
      obtain ⟨hstate, houtcome⟩ := makeRoom_ends hs hp (h.imp_right isOk_iff.mp)
      obtain ⟨hsound, hworking, hall, hget⟩ := pave_spec hs (hs.base directory) directory.segments
      rw [hstate, houtcome, hall, hground]
      exact ⟨hsound, hworking, Iff.rfl, hget⟩
    · have hground : fs.ground p = ([], false) := by
        unfold ground
        rw [hp]
        exact if_neg h
      obtain ⟨hnil, hcheck⟩ := not_or.mp h
      obtain ⟨hstate, houtcome⟩ := makeRoom_of_checkPath_error fs hp hnil (mt isOk_iff.mpr hcheck)
      rw [hstate, hground]
      exact ⟨hs, rfl, by simpa using houtcome, by simp⟩

theorem ground_eq_of_true (hp : p.parent? = some directory) (h : (fs.ground p).2) :
    (trim directory.segments = [] ∨ checkPath directory = .ok ()) ∧
      fs.ground p = fs.paving (fs.base directory) directory.segments := by
  unfold ground at h ⊢
  rw [hp] at h ⊢
  dsimp only at h ⊢
  split at h
  next hcheck => exact ⟨hcheck.imp_right isOk_iff.mp, if_pos hcheck⟩
  next => cases h

/-- Where nothing is in the way of its directories, a file's directory is reached once they are
made. -/
theorem makeRoom_reaches (hs : fs.Sound) (hp : p.parent? = some directory) (h : (fs.ground p).2) :
    (makeRoom p fs).2.Reaches directory (fs.place directory) := by
  obtain ⟨hcheck, hground⟩ := ground_eq_of_true hp h
  obtain ⟨hstate, -⟩ := makeRoom_ends hs hp hcheck
  obtain ⟨-, hworking, hall, -⟩ := pave_spec hs (hs.base directory) directory.segments
  rw [hground, ← hall] at h
  obtain ⟨hwalk, hlast⟩ := walk_pave hs (hs.base directory) h
  rw [hstate]
  refine ⟨?_, hlast⟩
  rw [base_congr hworking]
  unfold stem
  split
  next hnil =>
    obtain ⟨front, hfront⟩ := List.getLast?_eq_some_iff.mp hnil
    have hsame : front.foldl enter (fs.base directory) = fs.place directory := by
      unfold FileSystem.place Path.place
      rw [hfront, List.foldl_append, List.foldl_cons, List.foldl_nil, enter_of_isIdle _ rfl]
      rfl
    generalize fs.pave (fs.base directory) directory.segments = paved at hwalk
    rw [hfront, walk_append] at hwalk
    obtain ⟨d, hd, -⟩ := Batch.bind_eq_ok_iff.mp hwalk
    rw [hfront, List.dropLast_concat, hd, ← foldl_enter_of_walk hd, hsame]
  next => exact hwalk

/-- The directories that a file needs are none of them files. -/
theorem ground_spec (hs : fs.Sound) (hq : q ∈ (fs.ground p).1) :
    ∃ directory, p.parent? = some directory ∧
    q ∈ visits (fs.base directory) directory.segments ∧ ¬ fs.isFile q := by
  unfold ground at hq
  split at hq
  next => exact absurd hq List.not_mem_nil
  next directory hp =>
    split at hq
    next =>
      refine ⟨directory, hp, mem_visits_of_mem_paving hq, fun hfile => ?_⟩
      obtain ⟨content, hcontent⟩ := isFile_iff.mp hfile
      have hdirectory := get?_pave_of_mem hs (hs.base directory) hq
      rw [(pave_spec hs (hs.base directory) directory.segments).2.2.2, hcontent,
        if_neg (by simp)] at hdirectory
      cases hdirectory
    next => exact absurd hq List.not_mem_nil

end Disk
end FeatureDepot
