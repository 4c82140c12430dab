import FeatureDepot.Proofs.Path.Place

/-! The components of a path: what is left of its text when doubled slashes, slashes at the end and
dots that lead nowhere are passed over. A name pushed onto a path is one more component, and the
parent of a path is the path without its last one. -/
namespace FeatureDepot.Path

variable {p directory : Path} {s : Segment} {front back segments : List Segment}

/-- What a path starts with: a slash if it is absolute, or a dot. -/
def anchor (p : Path) : List Segment :=
  if p.isAbsolute then [['/']] else if p.segments.head? = some ['.'] then [['.']] else []

/-- The segments that lead somewhere. -/
def leading (segments : List Segment) : List Segment := segments.filter (! isIdle ·)

/-- The components of a path: what it starts with, and behind that names and double dots. -/
def components (p : Path) : List Segment := p.anchor ++ leading p.segments

lemma leading_append (front back : List Segment) :
    leading (front ++ back) = leading front ++ leading back :=
  List.filter_append front back

lemma leading_append_of_isIdle (front : List Segment) (h : ∀ s ∈ back, isIdle s) :
    leading (front ++ back) = leading front := by
  have hback : leading back = [] := List.filter_eq_nil_iff.mpr fun s hs => by simp [h s hs]
  rw [leading_append, hback, List.append_nil]

lemma leading_concat (front : List Segment) (h : isIdle s = false) :
    leading (front ++ [s]) = leading front ++ [s] := by
  simp [leading, h]

lemma leading_stem (segments : List Segment) : leading (stem segments) = leading segments := by
  unfold stem
  split
  next h =>
    obtain ⟨front, rfl⟩ := List.getLast?_eq_some_iff.mp h
    rw [List.dropLast_concat, leading_append_of_isIdle front (by simp [isIdle])]
  next => rfl

lemma leading_trim (segments : List Segment) : leading (trim segments) = leading segments := by
  obtain ⟨tail, htail, hsegments⟩ := exists_eq_trim_append segments
  conv_rhs => rw [hsegments, leading_append_of_isIdle _ htail]

lemma head?_stem_concat (hs : s ≠ ['.']) (segments : List Segment) :
    (stem segments ++ [s]).head? = some ['.'] ↔ segments.head? = some ['.'] := by
  unfold stem
  split
  next h =>
    obtain ⟨front, rfl⟩ := List.getLast?_eq_some_iff.mp h
    rw [List.dropLast_concat]
    cases front <;> simp [hs]
  next hlast =>
    cases segments with
    | nil => simp [hs]
    | cons t segments => simp

lemma anchor_push_name (hs : IsName s) (p : Path) :
    (p.push (String.ofList s)).anchor = p.anchor := by
  have hdot : s ≠ ['.'] := by
    rintro rfl
    simpa [isIdle] using hs.2.1
  unfold anchor
  rw [isAbsolute_push hs.head?_ne, segments_push_name hs]
  simp only [head?_stem_concat hdot]

theorem components_push_name (hs : IsName s) (p : Path) :
    (p.push (String.ofList s)).components = p.components ++ [s] := by
  unfold components
  rw [anchor_push_name hs, segments_push_name hs, leading_concat _ hs.2.1, leading_stem,
    List.append_assoc]

/-- Segments of which nothing is left do not start with a dot. -/
theorem head?_ne_of_trim_eq_nil (h : trim segments = []) : segments.head? ≠ some ['.'] := by
  unfold trim at h
  split at h
  next =>
    split at h
    next => cases h
    next hhead => exact hhead
  next => cases h

/-- A path starts with what its segments up to some place start with. -/
theorem head?_segments_of_trim (h : trim p.segments = front ++ back) (hne : trim front ≠ []) :
    p.segments.head? = (trim front).head? := by
  obtain ⟨tail, -, hsegments⟩ := exists_eq_trim_append p.segments
  obtain ⟨rest, -, hfront⟩ := exists_eq_trim_append front
  rw [h, hfront, List.append_assoc, List.append_assoc] at hsegments
  rw [hsegments, List.head?_append_of_ne_nil _ hne]

lemma head?_segments_of_trim_nil (h : trim p.segments = front ++ [s]) (hs : isIdle s = false)
    (hnil : trim front = []) :
    p.segments.head? ≠ some ['.'] := by
  obtain ⟨tail, -, hsegments⟩ := exists_eq_trim_append p.segments
  rw [hsegments, h]
  cases front with
  | nil =>
    intro hhead
    obtain rfl := Option.some.inj hhead
    cases hs
  | cons t front => simpa using head?_ne_of_trim_eq_nil hnil

/-- A path that is nothing but a dot has one component, and the empty path as its parent. -/
theorem components_of_dot (hdot : trim p.segments = [['.']]) :
    p.components = [['.']] ∧ p.parent? = some ⟨""⟩ := by
  have hhead : p.segments.head? = some ['.'] := by
    obtain ⟨tail, -, hsegments⟩ := exists_eq_trim_append p.segments
    rw [hsegments, hdot]
    rfl
  have habsolute : p.isAbsolute = false := by
    by_contra habsolute
    have hslash := (isAbsolute_iff.mp (by simpa using habsolute)).1
    rw [hhead] at hslash
    cases hslash
  have hleading : leading p.segments = [] := by
    rw [← leading_trim, hdot]
    rfl
  have hlast : trim p.segments = [] ++ [['.']] := hdot
  have hparent := parent?_of_trim hlast
  rw [habsolute] at hparent
  exact ⟨by simp [components, anchor, habsolute, hhead, hleading], hparent⟩

lemma components_of_trim (h : trim p.segments = front ++ [s]) (hs : isIdle s = false) :
    p.components = p.anchor ++ leading front ++ [s] := by
  rw [components, ← leading_trim, h, leading_concat front hs, List.append_assoc]

lemma components_parent?_of_trim (h : trim p.segments = front ++ [s]) (hs : isIdle s = false)
    (hd : p.parent? = some directory) : directory.components = p.anchor ++ leading front := by
  have hparent := parent?_of_trim h
  rw [hd] at hparent
  by_cases hnil : trim front = []
  · rw [if_pos hnil] at hparent
    obtain rfl := Option.some.inj hparent
    have hleading : leading front = [] := by
      rw [← leading_trim, hnil]
      rfl
    have hanchor : p.anchor = if p.isAbsolute then [['/']] else [] := by
      simp [anchor, head?_segments_of_trim_nil h hs hnil]
    rw [hleading, hanchor]
    cases p.isAbsolute <;> decide
  · rw [if_neg hnil] at hparent
    have hsegments : directory.segments = trim front := by
      obtain rfl := Option.some.inj hparent
      exact segments_ofSegments hnil fun t ht =>
        not_mem_of_mem_trim (h ▸ List.mem_append_left _ (mem_of_mem_trim ht))
    rw [components, anchor, (parent?_segments h hd).1, hsegments, leading_trim,
      ← head?_segments_of_trim h hnil, anchor]

/-- The parent of a path is the path without its last component. -/
theorem components_parent? (h : p.parent? = some directory) :
    directory.components = p.components.dropLast := by
  rcases trim_cases p.segments with hnil | hdot | ⟨front, s, htrim, hs⟩
  · unfold parent? at h
    rw [hnil] at h
    cases h
  · obtain ⟨hcomponents, hparent⟩ := components_of_dot hdot
    rw [hparent] at h
    obtain rfl := Option.some.inj h
    rw [hcomponents]
    decide
  · rw [components_parent?_of_trim htrim hs h, components_of_trim htrim hs, List.dropLast_concat]

example : (Path.mk "./a//b/.").components = [['.'], ['a'], ['b']] := by decide +kernel

end FeatureDepot.Path
