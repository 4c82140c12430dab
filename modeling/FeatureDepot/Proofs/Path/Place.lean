import FeatureDepot.FileSystem.Basic
import Mathlib.Data.List.Basic
import Mathlib.Data.List.Infix

/-! The places that the texts of paths name. A path names a place from a working directory, whether
there is something or not; a path pushed onto it, its parent and a longer last name stay close to
it. -/
namespace FeatureDepot

lemma not_mem_of_mem_splitOn {sep : Char} {cs part : List Char} (h : part ∈ cs.splitOn sep) :
    sep ∉ part := by
  induction cs generalizing part with
  | nil => simp_all
  | cons c cs ih =>
    rw [List.splitOn_cons_eq_if_modifyHead] at h
    split at h
    next =>
      rcases List.mem_cons.mp h with rfl | h
      · exact List.not_mem_nil
      · exact ih h
    next hc =>
      cases hcs : cs.splitOn sep with
      | nil => exact absurd hcs (List.splitOn_ne_nil sep cs)
      | cons first rest =>
        rw [hcs] at h ih
        rcases List.mem_cons.mp h with rfl | h
        · have hfirst := ih List.mem_cons_self
          have hne : c ≠ sep := by simpa using hc
          simp [hfirst, hne.symm]
        · exact ih (List.mem_cons_of_mem _ h)

lemma intercalate_concat_append {sep last more : List Char} {front : List (List Char)} :
    sep.intercalate (front ++ [last ++ more]) = sep.intercalate (front ++ [last]) ++ more := by
  induction front with
  | nil => simp
  | cons f front ih =>
    rw [List.cons_append, List.cons_append, List.intercalate_cons_of_ne_nil (by simp),
      List.intercalate_cons_of_ne_nil (by simp), ih]
    simp

/-- Text without a separator makes the last part longer. -/
lemma splitOn_append_of_not_mem {sep : Char} {cs more last : List Char} {front : List (List Char)}
    (h : cs.splitOn sep = front ++ [last]) (hmore : sep ∉ more) :
    (cs ++ more).splitOn sep = front ++ [last ++ more] := by
  have hparts : ∀ part ∈ front ++ [last ++ more], sep ∉ part := by
    intro part hpart
    rcases List.mem_append.mp hpart with hpart | hpart
    · exact not_mem_of_mem_splitOn (h ▸ List.mem_append_left _ hpart)
    · obtain rfl := List.mem_singleton.mp hpart
      have hlast : sep ∉ last := not_mem_of_mem_splitOn (h ▸ List.mem_concat_self)
      simp [hlast, hmore]
  calc (cs ++ more).splitOn sep
      = ([sep].intercalate (front ++ [last]) ++ more).splitOn sep := by
        rw [← h, List.intercalate_splitOn]
    _ = ([sep].intercalate (front ++ [last ++ more])).splitOn sep := by
      rw [intercalate_concat_append]
    _ = front ++ [last ++ more] := List.splitOn_intercalate sep hparts (by simp)

namespace Path

/-- A name that leads from a directory to something in it. -/
def IsName (s : Segment) : Prop := '/' ∉ s ∧ isIdle s = false ∧ s ≠ ['.', '.']

/-- One segment further from a place, as text shows it. -/
def enter (place : Place) (s : Segment) : Place :=
  if isIdle s then place else if s = ['.', '.'] then place.dropLast else place ++ [s]

/-- The place that a path names from a working directory. -/
def place (w : Place) (p : Path) : Place := p.segments.foldl enter (if p.isAbsolute then [] else w)

/-- The name at the end of a path, unless it ends in dots or in a slash. -/
def leaf? (p : Path) : Option Segment :=
  p.segments.getLast?.filter fun s => !isIdle s && s != ['.', '.']

variable {p : Path} {s t : Segment} {w : Place}

theorem enter_of_isIdle (place : Place) (h : isIdle s) : enter place s = place := by simp [enter, h]

theorem enter_of_isName (place : Place) (h : IsName s) : enter place s = place ++ [s] := by
  simp [enter, h.2.1, h.2.2]

theorem IsName.ne_nil (h : IsName s) : s ≠ [] := by
  rintro rfl
  simpa [isIdle] using h.2.1

/-- A text that is not empty and no dots is a name. -/
theorem isName_of_ne (hslash : '/' ∉ s) (hnil : s ≠ []) (hdot : s ≠ ['.'])
    (hdots : s ≠ ['.', '.']) : IsName s := by
  refine ⟨hslash, ?_, hdots⟩
  rw [isIdle, Bool.or_eq_false_iff, beq_eq_false_iff_ne, beq_eq_false_iff_ne]
  exact ⟨hnil, hdot⟩

theorem not_mem_of_mem_segments (h : s ∈ p.segments) : '/' ∉ s := not_mem_of_mem_splitOn h

theorem leaf?_eq_some_iff : p.leaf? = some s ↔ IsName s ∧ ∃ front, p.segments = front ++ [s] := by
  unfold leaf?
  rw [Option.filter_eq_some_iff, List.getLast?_eq_some_iff]
  constructor
  · rintro ⟨⟨front, h⟩, hs⟩
    have hslash : '/' ∉ s := not_mem_of_mem_segments (h ▸ List.mem_concat_self)
    simp only [Bool.and_eq_true, Bool.not_eq_true', bne_iff_ne] at hs
    exact ⟨⟨hslash, hs⟩, front, h⟩
  · rintro ⟨⟨-, hidle, hdots⟩, h⟩
    exact ⟨h, by simp [hidle, hdots]⟩

theorem place_of_segments {front : List Segment} (h : p.segments = front ++ [s]) (hs : IsName s) :
    p.place w = front.foldl enter (if p.isAbsolute then [] else w) ++ [s] := by
  unfold place
  rw [h, List.foldl_append, List.foldl_cons, List.foldl_nil, enter_of_isName _ hs]

theorem getLast?_place (h : p.leaf? = some s) : (p.place w).getLast? = some s := by
  obtain ⟨hs, front, hfront⟩ := leaf?_eq_some_iff.mp h
  rw [place_of_segments hfront hs, List.getLast?_concat]

/-- Paths that end in different names lead to different places. -/
theorem place_ne_of_leaf?_ne {q : Path} (hp : p.leaf? = some s) (hq : q.leaf? = some t)
    (hne : s ≠ t) :
    p.place w ≠ q.place w := by
  intro h
  have hlast := getLast?_place (w := w) hp
  rw [h, getLast?_place hq] at hlast
  exact hne (Option.some.inj hlast).symm

/-- The segments of a path without the empty one behind a slash at its end. -/
def stem (segments : List Segment) : List Segment :=
  if segments.getLast? = some [] then segments.dropLast else segments

theorem getLast?_segments :
    p.segments.getLast? = some [] ↔ p.text.toList.getLast?.all (· == '/') := by
  unfold segments
  rcases List.eq_nil_or_concat p.text.toList with h | ⟨cs, c, h⟩
  · simp [h]
  · rw [h, List.concat_eq_append, List.getLast?_concat]
    by_cases hc : c = '/'
    · rw [hc, List.splitOn_append_cons_self]
      simp
    · obtain ⟨front, last, hcs⟩ :=
        (List.eq_nil_or_concat (cs.splitOn '/')).resolve_left (List.splitOn_ne_nil _ _)
      rw [List.concat_eq_append] at hcs
      rw [splitOn_append_of_not_mem hcs (by simpa using Ne.symm hc)]
      simp [hc]

theorem segments_push {below : String} (h : below.toList.head? ≠ some '/') :
    (p.push below).segments = stem p.segments ++ below.toList.splitOn '/' := by
  unfold push stem
  rw [if_neg h]
  by_cases hlast : p.text.toList.getLast?.all (· == '/')
  · rw [if_pos hlast, if_pos (getLast?_segments.mpr hlast)]
    unfold segments
    rw [String.toList_append]
    rcases List.eq_nil_or_concat p.text.toList with hp | ⟨cs, c, hp⟩
    · simp [hp]
    · obtain rfl : c = '/' := by simpa [hp] using hlast
      rw [hp, List.concat_eq_append, List.append_assoc, List.singleton_append,
        List.splitOn_append_cons_self, List.splitOn_append_cons_self]
      simp
  · rw [if_neg hlast, if_neg (mt getLast?_segments.mp hlast)]
    unfold segments
    rw [String.toList_append, String.toList_append, List.append_assoc]
    exact List.splitOn_append_cons_self _ _

theorem isAbsolute_push {below : String} (h : below.toList.head? ≠ some '/') :
    (p.push below).isAbsolute = p.isAbsolute := by
  unfold push isAbsolute
  rw [if_neg h]
  cases hp : p.text.toList with
  | nil => simp [hp, h]
  | cons c cs =>
    split <;> simp [hp]

theorem foldl_enter_stem (segments : List Segment) :
    (stem segments).foldl enter w = segments.foldl enter w := by
  unfold stem
  split
  next h =>
    obtain ⟨front, rfl⟩ := List.getLast?_eq_some_iff.mp h
    rw [List.dropLast_concat, List.foldl_append, List.foldl_cons, List.foldl_nil,
      enter_of_isIdle _ rfl]
  next => rfl

theorem place_push {below : String} (h : below.toList.head? ≠ some '/') :
    (p.push below).place w = (below.toList.splitOn '/').foldl enter (p.place w) := by
  unfold place
  rw [segments_push h, isAbsolute_push h, List.foldl_append, foldl_enter_stem]

theorem IsName.head?_ne (h : IsName s) : (String.ofList s).toList.head? ≠ some '/' := by
  intro hhead
  rw [String.toList_ofList] at hhead
  exact h.1 (List.mem_of_mem_head? hhead)

lemma IsName.splitOn (h : IsName s) : (String.ofList s).toList.splitOn '/' = [s] := by
  rw [String.toList_ofList, List.splitOn_eq_singleton h.1]

theorem segments_push_name (h : IsName s) :
    (p.push (String.ofList s)).segments = stem p.segments ++ [s] := by
  rw [segments_push h.head?_ne, h.splitOn]

theorem place_push_name (h : IsName s) : (p.push (String.ofList s)).place w = p.place w ++ [s] := by
  rw [place_push h.head?_ne, h.splitOn, List.foldl_cons, List.foldl_nil, enter_of_isName _ h]

theorem leaf?_push_name (h : IsName s) : (p.push (String.ofList s)).leaf? = some s :=
  leaf?_eq_some_iff.mpr ⟨h, _, segments_push_name h⟩

theorem stem_concat (front : List Segment) (h : s ≠ []) : stem (front ++ [s]) = front ++ [s] := by
  simp [stem, h]

lemma IsName.append {ending : List Char} (h : IsName s) (hending : '/' ∉ ending) :
    IsName (s ++ ending) := by
  obtain ⟨hslash, hidle, hdots⟩ := h
  refine ⟨by simp [hslash, hending], ?_, ?_⟩
  · rcases s with _ | ⟨c, _ | ⟨d, s⟩⟩ <;> simp_all [isIdle]
  · rcases s with _ | ⟨c, _ | ⟨d, s⟩⟩ <;> simp_all [isIdle]

lemma isAbsolute_extend {ending : String} (h : '/' ∉ ending.toList) :
    (p.extend ending).isAbsolute = p.isAbsolute := by
  unfold extend isAbsolute
  cases hp : p.text.toList with
  | nil =>
    have hhead : ending.toList.head? ≠ some '/' := fun hhead => h (List.mem_of_mem_head? hhead)
    simp [hp, hhead]
  | cons c cs => simp [hp]

theorem segments_extend {ending : String} {front : List Segment} (hp : p.segments = front ++ [s])
    (h : '/' ∉ ending.toList) : (p.extend ending).segments = front ++ [s ++ ending.toList] := by
  unfold segments extend
  rw [String.toList_append]
  exact splitOn_append_of_not_mem hp h

theorem leaf?_extend {ending : String} (hp : p.leaf? = some s) (h : '/' ∉ ending.toList) :
    (p.extend ending).leaf? = some (s ++ ending.toList) := by
  obtain ⟨hs, front, hfront⟩ := leaf?_eq_some_iff.mp hp
  exact leaf?_eq_some_iff.mpr ⟨hs.append h, front, segments_extend hfront h⟩

/-- A longer last name leads to a place in the same directory. -/
theorem place_extend (hp : p.leaf? = some s) : ∃ directory, p.place w = directory ++ [s] ∧
    ∀ ending : String, '/' ∉ ending.toList →
    (p.extend ending).place w = directory ++ [s ++ ending.toList] := by
  obtain ⟨hs, front, hfront⟩ := leaf?_eq_some_iff.mp hp
  refine ⟨_, place_of_segments hfront hs, fun ending h => ?_⟩
  rw [place_of_segments (segments_extend hfront h) (hs.append h), isAbsolute_extend h]

theorem trim_concat (front : List Segment) (h : isIdle s = false) :
    trim (front ++ [s]) = front ++ [s] := by
  unfold trim
  rw [List.reverse_append, List.reverse_singleton, List.singleton_append,
    List.dropWhile_cons_of_neg (by simp [h]), List.reverse_cons, List.reverse_reverse]
  split <;> simp_all

theorem fileName?_of_leaf? (h : p.leaf? = some s) : p.fileName? = some (String.ofList s) := by
  obtain ⟨hs, front, hfront⟩ := leaf?_eq_some_iff.mp h
  have hdot : s ≠ ['.'] := by
    rintro rfl
    simpa [isIdle] using hs.2.1
  simp [fileName?, hfront, trim_concat front hs.2.1, hdot, hs.2.2]

/-- What is trimmed off leads nowhere. -/
theorem exists_eq_trim_append (segments : List Segment) :
    ∃ tail, (∀ s ∈ tail, isIdle s) ∧ segments = trim segments ++ tail := by
  have hsplit : segments = (segments.reverse.dropWhile isIdle).reverse ++
      (segments.reverse.takeWhile isIdle).reverse := by
    rw [← List.reverse_append, List.takeWhile_append_dropWhile, List.reverse_reverse]
  have htail : ∀ s ∈ (segments.reverse.takeWhile isIdle).reverse, isIdle s := by
    intro s hs
    exact (List.all_eq_true.mp List.all_takeWhile) s (List.mem_reverse.mp hs)
  cases hfront : (segments.reverse.dropWhile isIdle).reverse with
  | cons s rest =>
    refine ⟨_, htail, ?_⟩
    have htrim : trim segments = s :: rest := by
      unfold trim
      rw [hfront]
    rw [htrim, ← hfront]
    exact hsplit
  | nil =>
    -- All segments are idle, and a dot in front stays.
    rw [hfront, List.nil_append] at hsplit
    have htrim : trim segments = if segments.head? = some ['.'] then [['.']] else [] := by
      unfold trim
      rw [hfront]
    rw [← hsplit] at htail
    rw [htrim]
    split
    next h =>
      obtain ⟨tail, rfl⟩ := List.head?_eq_some_iff.mp h
      exact ⟨tail, fun t ht => htail t (List.mem_cons_of_mem _ ht), rfl⟩
    next => exact ⟨segments, htail, rfl⟩

theorem mem_of_mem_trim {segments : List Segment} (h : s ∈ trim segments) : s ∈ segments := by
  obtain ⟨tail, -, hsplit⟩ := exists_eq_trim_append segments
  rw [hsplit]
  exact List.mem_append_left _ h

theorem not_mem_of_mem_trim (h : s ∈ trim p.segments) : '/' ∉ s :=
  not_mem_of_mem_segments (mem_of_mem_trim h)

/-- Trimmed segments end in one that leads somewhere, if they are not just a dot. -/
theorem trim_cases (segments : List Segment) : trim segments = [] ∨ trim segments = [['.']] ∨
    ∃ front s, trim segments = front ++ [s] ∧ isIdle s = false := by
  unfold trim
  cases h : (segments.reverse.dropWhile isIdle).reverse with
  | nil =>
    dsimp only
    split
    · exact .inr (.inl rfl)
    · exact .inl rfl
  | cons t rest =>
    obtain ⟨front, s, hconcat⟩ := (List.eq_nil_or_concat (t :: rest)).resolve_left (by simp)
    rw [List.concat_eq_append] at hconcat
    have hhead := List.head?_dropWhile_not isIdle segments.reverse
    rw [← List.reverse_reverse (segments.reverse.dropWhile isIdle), h, hconcat] at hhead
    refine .inr (.inr ⟨front, s, hconcat, ?_⟩)
    simpa using hhead

theorem trim_trim (segments : List Segment) : trim (trim segments) = trim segments := by
  rcases trim_cases segments with h | h | ⟨front, s, h, hs⟩
  · rw [h]
    rfl
  · rw [h]
    rfl
  · rw [h, trim_concat front hs]

theorem isIdle_of_getLast?_trim {segments : List Segment} (h : (trim segments).getLast? = some s) :
    s = ['.'] ∨ isIdle s = false := by
  rcases trim_cases segments with hnil | hdot | ⟨front, t, hlast, ht⟩
  · rw [hnil] at h
    cases h
  · rw [hdot] at h
    exact .inl (Option.some.inj h).symm
  · rw [hlast, List.getLast?_concat] at h
    obtain rfl := Option.some.inj h
    exact .inr ht

lemma trim_ne (segments : List Segment) : trim segments ≠ [[]] := by
  intro h
  have hlast : (trim segments).getLast? = some [] := by rw [h]; rfl
  rcases isIdle_of_getLast?_trim hlast with hdot | hidle
  · cases hdot
  · cases hidle

theorem foldl_enter_of_isIdle {segments : List Segment} (h : ∀ s ∈ segments, isIdle s) :
    segments.foldl enter w = w := by
  induction segments with
  | nil => rfl
  | cons s segments ih =>
    rw [List.foldl_cons, enter_of_isIdle _ (h s List.mem_cons_self)]
    exact ih fun t ht => h t (List.mem_cons_of_mem _ ht)

theorem foldl_enter_trim (segments : List Segment) :
    (trim segments).foldl enter w = segments.foldl enter w := by
  obtain ⟨tail, htail, hsegments⟩ := exists_eq_trim_append segments
  conv_rhs => rw [hsegments, List.foldl_append, foldl_enter_of_isIdle htail]

/-- What a path leads to has its file name, also behind a slash or a dot at its end. -/
theorem getLast?_place_of_fileName? {name : String} (h : p.fileName? = some name) :
    (p.place w).getLast? = some name.toList := by
  unfold fileName? at h
  split at h
  next s hlast =>
    split at h
    next => cases h
    next hdots =>
      obtain rfl := Option.some.inj h
      obtain ⟨hdot, hdots⟩ := not_or.mp hdots
      have hslash : '/' ∉ s := not_mem_of_mem_trim (List.mem_of_getLast? hlast)
      have hs : IsName s := ⟨hslash, (isIdle_of_getLast?_trim hlast).resolve_left hdot, hdots⟩
      obtain ⟨front, hfront⟩ := List.getLast?_eq_some_iff.mp hlast
      unfold place
      rw [← foldl_enter_trim, hfront, List.foldl_append, List.foldl_cons, List.foldl_nil,
        enter_of_isName _ hs, List.getLast?_concat, String.toList_ofList]
  next => cases h

theorem segments_ofSegments {segments : List Segment} (hne : segments ≠ [])
    (h : ∀ s ∈ segments, '/' ∉ s) :
    (ofSegments segments).segments = segments := by
  unfold ofSegments Path.segments
  rw [String.toList_ofList]
  exact List.splitOn_intercalate '/' h hne

/-- An absolute path starts with an empty segment. -/
theorem isAbsolute_iff : p.isAbsolute ↔ p.segments.head? = some [] ∧ p.segments ≠ [[]] := by
  unfold isAbsolute segments
  cases p.text.toList with
  | nil => simp
  | cons c cs =>
    rw [List.splitOn_cons_eq_if_modifyHead]
    cases hcs : cs.splitOn '/' with
    | nil => exact absurd hcs (List.splitOn_ne_nil _ _)
    | cons first rest =>
      by_cases hc : c = '/' <;> simp [hc]

/-- The parent of a path is what is in front of its last segment, trimmed. -/
theorem parent?_of_trim {front : List Segment} (h : trim p.segments = front ++ [s]) : p.parent? =
    some (if trim front = [] then ⟨if p.isAbsolute then "/" else ""⟩
      else ofSegments (trim front)) := by
  have hdrop : (front ++ [s]).dropLast = front := List.dropLast_concat
  unfold parent?
  rw [h]
  cases hcons : front ++ [s] with
  | nil => simp at hcons
  | cons t rest =>
    rw [hcons] at hdrop
    simp only [hdrop]
    cases htrim : trim front <;> simp

theorem parent?_of_segments {front : List Segment} (h : p.segments = front ++ [s])
    (hs : isIdle s = false) :
    p.parent? = some (if trim front = [] then ⟨if p.isAbsolute then "/" else ""⟩
      else ofSegments (trim front)) :=
  parent?_of_trim (by rw [h, trim_concat front hs])

/-- The parent of a path leads there as the path does up to its last segment, be it a name or
dots. -/
theorem parent?_segments {directory : Path} {front : List Segment}
    (h : trim p.segments = front ++ [s]) (hd : p.parent? = some directory) :
    directory.isAbsolute = p.isAbsolute ∧ (directory.segments = trim front ∨
      ((∀ s ∈ directory.segments, isIdle s) ∧ ∀ s ∈ front, isIdle s)) := by
  rw [parent?_of_trim h] at hd
  obtain rfl := Option.some.inj hd
  by_cases hnil : trim front = []
  · rw [if_pos hnil]
    obtain ⟨rest, hrest, hfront⟩ := exists_eq_trim_append front
    rw [hnil, List.nil_append] at hfront
    rw [hfront]
    cases p.isAbsolute
    · exact ⟨rfl, .inr ⟨by decide, hrest⟩⟩
    · exact ⟨rfl, .inr ⟨by decide, hrest⟩⟩
  · rw [if_neg hnil]
    have hslash : ∀ t ∈ trim front, '/' ∉ t := by
      intro t ht
      have hmem : t ∈ trim p.segments := h ▸ List.mem_append_left _ (mem_of_mem_trim ht)
      exact not_mem_of_mem_trim hmem
    have hparts := segments_ofSegments hnil hslash
    refine ⟨?_, .inl hparts⟩
    have hlong : p.segments ≠ [[]] := by
      intro hone
      rw [hone] at h
      simp [trim, isIdle] at h
    rw [Bool.eq_iff_iff, isAbsolute_iff, isAbsolute_iff, hparts]
    have hhead : (trim front).head? = p.segments.head? := by
      obtain ⟨rest, -, hfront⟩ := exists_eq_trim_append front
      obtain ⟨tail, -, hsegments⟩ := exists_eq_trim_append p.segments
      rw [h, hfront, List.append_assoc, List.append_assoc] at hsegments
      rw [hsegments, List.head?_append_of_ne_nil _ hnil]
    rw [hhead]
    exact and_congr_right fun _ => ⟨fun _ => hlong, fun _ => trim_ne front⟩

/-- The last segment leads from the parent to where the path leads. -/
theorem place_parent?_enter {directory : Path} {front : List Segment}
    (h : trim p.segments = front ++ [s]) (hd : p.parent? = some directory) (w : Place) :
    p.place w = enter (directory.place w) s := by
  obtain ⟨habsolute, hsegments⟩ := parent?_segments h hd
  have hplace : p.place w = enter (front.foldl enter (if p.isAbsolute then [] else w)) s := by
    unfold place
    rw [← foldl_enter_trim, h, List.foldl_append]
    rfl
  rw [hplace]
  unfold place
  rw [habsolute]
  rcases hsegments with hsegments | ⟨hidle, hfront⟩
  · rw [hsegments, foldl_enter_trim]
  · rw [foldl_enter_of_isIdle hidle, foldl_enter_of_isIdle hfront]

/-- The parent of a path leads to the directory of what the path leads to. -/
theorem place_parent? {directory : Path} (hp : p.leaf? = some s) (hd : p.parent? = some directory) :
    p.place w = directory.place w ++ [s] := by
  obtain ⟨hs, front, hfront⟩ := leaf?_eq_some_iff.mp hp
  have htrim : trim p.segments = front ++ [s] := by rw [hfront, trim_concat front hs.2.1]
  rw [place_parent?_enter htrim hd, enter_of_isName _ hs]

/-- Below a name, the parent is what was pushed onto. -/
theorem parent?_push_push (hs : IsName s) (ht : IsName t) :
    ((p.push (String.ofList s)).push (String.ofList t)).parent? =
      some (p.push (String.ofList s)) := by
  have hfront : (p.push (String.ofList s)).segments = stem p.segments ++ [s] :=
    segments_push_name hs
  have hsegments : ((p.push (String.ofList s)).push (String.ofList t)).segments =
      (p.push (String.ofList s)).segments ++ [t] := by
    rw [segments_push_name ht, hfront, stem_concat _ hs.ne_nil]
  rw [parent?_of_segments hsegments ht.2.1, hfront, trim_concat _ hs.2.1, if_neg (by simp),
    ← hfront, ofSegments_segments]

end Path
end FeatureDepot
