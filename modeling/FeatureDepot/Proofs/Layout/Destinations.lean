import FeatureDepot.Depot
import FeatureDepot.Proofs.FileSystem.Arrival
import FeatureDepot.Proofs.Layout.Nested

/-! What lies on the way to a file of an artifact, in either layout. Coordinates may hold slashes;
as long as no part between them leads up, the way goes to the root and from there only down, to a
name that the file has. -/
namespace FeatureDepot
open FeatureDepot.Path FileSystem

namespace Path

variable {p root directory : Path} {segments before tail : List Segment} {name : Segment}
  {w q : Place}

/-- The last segment that leads somewhere. -/
theorem exists_last_not_idle (h : ∃ s ∈ segments, isIdle s = false) :
    ∃ before name tail, segments = before ++ name :: tail ∧ isIdle name = false ∧
    ∀ s ∈ tail, isIdle s := by
  obtain ⟨tail, htail, hsegments⟩ := exists_eq_trim_append segments
  rcases trim_cases segments with hnil | hdot | ⟨before, name, hlast, hname⟩
  · obtain ⟨s, hs, hidle⟩ := h
    rw [hnil, List.nil_append] at hsegments
    rw [htail s (hsegments ▸ hs)] at hidle
    cases hidle
  · obtain ⟨s, hs, hidle⟩ := h
    rw [hdot] at hsegments
    rw [hsegments] at hs
    rcases List.mem_append.mp hs with hs | hs
    · rw [List.mem_singleton.mp hs] at hidle
      cases hidle
    · rw [htail s hs] at hidle
      cases hidle
  · rw [hlast, List.append_assoc, List.singleton_append] at hsegments
    exact ⟨before, name, tail, hsegments, hname, htail⟩

/-- Segments that are put behind a path one by one; empty ones only stay at the end. -/
theorem segments_pushAll (hne : segments ≠ []) (h : ∀ s ∈ segments, '/' ∉ s) (p : Path) :
    (p.pushAll segments).segments =
      stem p.segments ++ (segments.dropLast.filter (! ·.isEmpty) ++ [segments.getLast hne]) ∧
    (p.pushAll segments).isAbsolute = p.isAbsolute := by
  induction segments generalizing p with
  | nil => exact absurd rfl hne
  | cons s segments ih =>
    have hslash := h s List.mem_cons_self
    have hhead : (String.ofList s).toList.head? ≠ some '/' := by
      rw [String.toList_ofList]
      exact fun h => hslash (List.mem_of_mem_head? h)
    have hpush : (p.push (String.ofList s)).segments = stem p.segments ++ [s] := by
      rw [segments_push hhead, String.toList_ofList, List.splitOn_eq_singleton hslash]
    have habsolute : (p.push (String.ofList s)).isAbsolute = p.isAbsolute := isAbsolute_push hhead
    cases segments with
    | nil => exact ⟨hpush, habsolute⟩
    | cons t segments =>
      obtain ⟨hsegments, hsame⟩ :=
        ih (by simp) (fun u hu => h u (List.mem_cons_of_mem _ hu)) (p.push (String.ofList s))
      have hstep : p.pushAll (s :: t :: segments) =
          (p.push (String.ofList s)).pushAll (t :: segments) := rfl
      have hdrop : (s :: t :: segments).dropLast = s :: (t :: segments).dropLast := rfl
      have hlast : (s :: t :: segments).getLast hne = (t :: segments).getLast (by simp) := rfl
      rw [hstep, hsegments, hsame, hpush, hdrop, hlast]
      refine ⟨?_, habsolute⟩
      by_cases hs : s = []
      · rw [hs, List.filter_cons_of_neg (by simp)]
        simp [stem]
      · rw [stem_concat _ hs, List.filter_cons_of_pos (by simpa using hs)]
        simp

/-- A path that goes on below a root, down to a name, behind which it leads nowhere. -/
structure Below (root p : Path) (before : List Segment) (name : Segment) (tail : List Segment) :
    Prop where
  parted : p.Parted (stem root.segments ++ before) name tail
  isAbsolute : p.isAbsolute = root.isAbsolute
  down : ['.', '.'] ∉ before

lemma exists_below_pushAll (h : ∀ s ∈ segments, '/' ∉ s) (hdown : ['.', '.'] ∉ segments)
    (hname : ∃ s ∈ segments, isIdle s = false) (root : Path) :
    ∃ before name tail, Below root (root.pushAll segments) before name tail := by
  have hne : segments ≠ [] := by
    rintro rfl
    simp at hname
  obtain ⟨hsegments, habsolute⟩ := segments_pushAll hne h root
  have hsub : ∀ s ∈ segments.dropLast.filter (! ·.isEmpty) ++ [segments.getLast hne],
      s ∈ segments := by
    intro s hs
    rcases List.mem_append.mp hs with hs | hs
    · exact List.mem_of_mem_dropLast (List.mem_of_mem_filter hs)
    · exact List.mem_singleton.mp hs ▸ List.getLast_mem hne
  have hlast : ∃ s ∈ segments.dropLast.filter (! ·.isEmpty) ++ [segments.getLast hne],
      isIdle s = false := by
    obtain ⟨s, hs, hidle⟩ := hname
    refine ⟨s, ?_, hidle⟩
    rw [← List.dropLast_append_getLast hne] at hs
    rcases List.mem_append.mp hs with hs | hs
    · refine List.mem_append_left _ (List.mem_filter.mpr ⟨hs, ?_⟩)
      cases s with
      | nil => cases hidle
      | cons c s => rfl
    · exact List.mem_append_right _ hs
  obtain ⟨before, name, tail, hsplit, hidle, htail⟩ := exists_last_not_idle hlast
  rw [hsplit] at hsegments hsub
  have hmem : name ∈ segments := hsub name (by simp)
  refine ⟨before, name, tail, ⟨?_, ⟨h name hmem, hidle, fun hdots => hdown (hdots ▸ hmem)⟩, htail⟩,
    habsolute, ?_⟩
  · rw [hsegments, List.append_assoc]
  · exact fun hdots => hdown (hsub _ (List.mem_append_left _ hdots))

namespace Below

lemma base (h : Below root p before name tail) (fs : FileSystem) : fs.base p = fs.base root := by
  unfold FileSystem.base
  rw [h.isAbsolute]

lemma place_eq (h : Below root p before name tail) (w : Place) :
    p.place w = before.foldl enter (root.place w) ++ [name] := by
  rw [h.parted.place_eq, List.foldl_append, foldl_enter_stem, h.isAbsolute]
  rfl

lemma isPrefix_foldl_enter (hdown : ['.', '.'] ∉ before) (w : Place) : w <+: before.foldl enter w :=
  (between_of_mem_visits hdown (foldl_enter_mem_visits w before)).1

/-- The directory that holds the path is the root, or lies below it. -/
theorem root_prefix_dropLast (h : Below root p before name tail) (w : Place) :
    root.place w <+: (p.place w).dropLast := by
  rw [h.place_eq, List.dropLast_concat]
  exact isPrefix_foldl_enter h.down _

/-- The way to the path goes by the way to the root and, from there, down to the path. -/
theorem between (h : Below root p before name tail) (fs : FileSystem)
    (hq : q ∈ visits (fs.base p) p.segments) :
    q ∈ visits (fs.base root) root.segments ∨ fs.place root <+: q ∧ q <+: fs.place p := by
  have hroot : (stem root.segments).foldl enter (fs.base root) = fs.place root := foldl_enter_stem _
  have hdown : ['.', '.'] ∉ before ++ name :: tail := by
    intro hmem
    rcases List.mem_append.mp hmem with hmem | hmem
    · exact h.down hmem
    · rcases List.mem_cons.mp hmem with hmem | hmem
      · exact h.parted.isName.2.2 hmem.symm
      · cases h.parted.idle _ hmem
  rw [h.parted.segments, List.append_assoc, h.base, visits_append, mem_visits_stem, hroot] at hq
  refine hq.imp_right fun hq => ?_
  obtain ⟨habove, hbelow⟩ := between_of_mem_visits hdown hq
  refine ⟨habove, ?_⟩
  have hplace : (before ++ name :: tail).foldl enter (fs.place root) = fs.place p := by
    rw [List.foldl_append, List.foldl_cons, enter_of_isName _ h.parted.isName,
      foldl_enter_of_isIdle h.parted.idle]
    exact (h.place_eq fs.workingDirectory).symm
  rwa [hplace] at hbelow

/-- The way to the directory of the path is a part of the way to the path. -/
theorem visits_directory_subset (h : Below root p before name tail)
    (hd : p.parent? = some directory) (fs : FileSystem)
    (hq : q ∈ visits (fs.base directory) directory.segments) :
    q ∈ visits (fs.base p) p.segments := by
  have hbase : fs.base directory = fs.base p := by
    unfold FileSystem.base
    rw [(h.parted.directory_segments hd).1]
  rw [hbase, h.parted.mem_visits_directory hd] at hq
  rw [h.parted.segments, visits_append]
  exact .inl hq

/-- What the way to the root passes, the way to the directory of the path passes. -/
theorem visits_root_subset (h : Below root p before name tail) (hd : p.parent? = some directory)
    (fs : FileSystem) (hq : q ∈ visits (fs.base root) root.segments) :
    q ∈ visits (fs.base directory) directory.segments := by
  have hbase : fs.base directory = fs.base root := by
    unfold FileSystem.base
    rw [(h.parted.directory_segments hd).1, h.isAbsolute]
  rw [hbase, h.parted.mem_visits_directory hd, visits_append, mem_visits_stem]
  exact .inl hq

end Below

/-- A text none of whose parts between slashes consists of one or two dots. -/
def Dotless (text : List Char) : Prop := ['.'] ∉ text.splitOn '/' ∧ ['.', '.'] ∉ text.splitOn '/'

instance (text : List Char) : Decidable (Dotless text) := inferInstanceAs (Decidable (_ ∧ _))

lemma splitOn_append_cons_of_ne {c : Char} (hc : c ≠ '/') (cs ds : List Char) :
    ∃ front last first back, cs.splitOn '/' = front ++ [last] ∧ ds.splitOn '/' = first :: back ∧
      (cs ++ c :: ds).splitOn '/' = front ++ (last ++ c :: first) :: back := by
  obtain ⟨front, last, hcs⟩ :=
    (List.eq_nil_or_concat (cs.splitOn '/')).resolve_left (List.splitOn_ne_nil _ _)
  rw [List.concat_eq_append] at hcs
  obtain ⟨first, back, hds⟩ := List.exists_cons_of_ne_nil (List.splitOn_ne_nil '/' ds)
  have hparts : ∀ part ∈ first :: back, '/' ∉ part :=
    fun part hpart => not_mem_of_mem_splitOn (hds ▸ hpart)
  have hglue : (cs ++ c :: first).splitOn '/' = front ++ [last ++ c :: first] :=
    splitOn_append_of_not_mem hcs (by simpa using ⟨Ne.symm hc, hparts first List.mem_cons_self⟩)
  refine ⟨front, last, first, back, hcs, hds, ?_⟩
  have hjoin : ['/'].intercalate (first :: back) = ds := hds ▸ List.intercalate_splitOn '/'
  cases back with
  | nil =>
    rw [← hjoin]
    simpa [List.intercalate_singleton] using hglue
  | cons next back =>
    have hsplit : cs ++ c :: ds = (cs ++ c :: first) ++ '/' ::
        ['/'].intercalate (next :: back) := by
      rw [← hjoin, List.intercalate_cons_cons]
      simp
    rw [hsplit, List.splitOn_append_cons_self, hglue,
      List.splitOn_intercalate '/' (fun part hpart => hparts part (List.mem_cons_of_mem _ hpart))
        (by simp), List.append_assoc, List.singleton_append]

namespace Dotless

variable {cs ds : List Char}

lemma dash (h : Dotless cs) (h' : Dotless ds) : Dotless (cs ++ '-' :: ds) := by
  obtain ⟨front, last, first, back, hcs, hds, hglue⟩ :=
    splitOn_append_cons_of_ne (by decide : '-' ≠ '/') cs ds
  unfold Dotless at h h' ⊢
  rw [hcs] at h
  rw [hds] at h'
  rw [hglue]
  have hmiddle : ∀ dots : List Char, '-' ∉ dots → dots ≠ last ++ '-' :: first := by
    rintro _ hdots rfl
    simp at hdots
  simp only [List.mem_append, List.mem_cons, List.not_mem_nil, or_false, not_or] at h h' ⊢
  exact ⟨⟨h.1.1, hmiddle _ (by decide), h'.1.2⟩, ⟨h.2.1, hmiddle _ (by decide), h'.2.2⟩⟩

lemma slash (h : Dotless cs) (h' : Dotless ds) : Dotless (cs ++ '/' :: ds) := by
  unfold Dotless
  rw [List.splitOn_append_cons_self]
  simp only [List.mem_append, not_or]
  exact ⟨⟨h.1, h'.1⟩, h.2, h'.2⟩

lemma dot (h : Dotless cs) (h' : Dotless ds) : ['.', '.'] ∉ (cs ++ '.' :: ds).splitOn '/' := by
  obtain ⟨front, last, first, back, hcs, hds, hglue⟩ :=
    splitOn_append_cons_of_ne (by decide : '.' ≠ '/') cs ds
  rw [hglue]
  intro hmem
  rcases List.mem_append.mp hmem with hmem | hmem
  · exact h.2 (hcs ▸ List.mem_append_left _ hmem)
  rcases List.mem_cons.mp hmem with heq | hmem
  · rcases List.append_eq_cons_iff.mp heq.symm with ⟨rfl, hrest⟩ | ⟨rest, rfl, hrest⟩
    · obtain ⟨-, rfl⟩ := List.cons.inj hrest
      exact h'.1 (hds ▸ List.mem_cons_self)
    · obtain ⟨rfl, -⟩ := List.append_eq_singleton_iff.mp hrest.symm |>.resolve_right (by simp)
      exact h.1 (hcs ▸ List.mem_concat_self)
  · exact h'.2 (hds ▸ List.mem_cons_of_mem _ hmem)

end Dotless

end Path

/-- The texts that the path of an artifact is made of. -/
def Artifact.pathTexts (a : Artifact) : List String :=
  [a.group, a.name, a.baseVersion] ++ a.classifier.toList ++ [a.extension]

namespace Depot

variable {d : Depot} {a : Artifact}

/-- The segments of an artifact's path below the root. -/
def relative (d : Depot) (a : Artifact) : List Segment :=
  (Path.mk (d.layout.relativePath a)).segments

/-- Coordinates without dots between slashes do not lead up, in either layout. -/
theorem dots_not_mem_relative (h : ∀ text ∈ a.pathTexts, Dotless text.toList) (d : Depot) :
    ['.', '.'] ∉ d.relative a := by
  have hname : ['.', '.'] ∉ (Layout.fileName a).toList.splitOn '/' := by
    have hstem : Dotless (a.name.toList ++ '-' :: a.baseVersion.toList) :=
      .dash (h _ (by simp [Artifact.pathTexts])) (h _ (by simp [Artifact.pathTexts]))
    have hextension : Dotless a.extension.toList := h _ (by simp [Artifact.pathTexts])
    unfold Layout.fileName
    cases hclassifier : a.classifier with
    | none => simpa using hstem.dot hextension
    | some c =>
      simpa using (hstem.dash (h c (by simp [Artifact.pathTexts, hclassifier]))).dot hextension
  unfold relative Layout.relativePath Path.segments
  cases d.layout with
  | flat => exact hname
  | nested =>
    have hgroup : Dotless (Layout.groupDirectory a.group).toList := by
      have hdot : '.' ∉ (Layout.groupDirectory a.group).toList := by
        simp only [Layout.groupDirectory, String.toList_ofList, List.mem_map, not_exists, not_and]
        intro c _ hc
        split at hc
        next => cases hc
        next hne => exact hne hc
      have hnone : ∀ s ∈ (Layout.groupDirectory a.group).toList.splitOn '/', '.' ∉ s :=
        fun s hs hmem => hdot ((mem_iff_exists_mem_splitOn (by decide) _).mpr ⟨s, hs, hmem⟩)
      exact ⟨fun hmem => hnone _ hmem (by simp), fun hmem => hnone _ hmem (by simp)⟩
    have hdirectory : Dotless
        ((Layout.groupDirectory a.group).toList ++ '/' ::
          (a.name.toList ++ '/' :: a.baseVersion.toList)) :=
      hgroup.slash (.slash (h _ (by simp [Artifact.pathTexts]))
        (h _ (by simp [Artifact.pathTexts])))
    have htext :
        (Layout.groupDirectory a.group ++ "/" ++ a.name ++ "/" ++ a.baseVersion ++ "/" ++
          Layout.fileName a).toList =
        ((Layout.groupDirectory a.group).toList ++ '/' ::
          (a.name.toList ++ '/' :: a.baseVersion.toList)) ++
          '/' :: (Layout.fileName a).toList := by simp
    rw [htext, List.splitOn_append_cons_self, List.mem_append, not_or]
    exact ⟨hdirectory.2, hname⟩

theorem exists_below_destination (hdown : ['.', '.'] ∉ d.relative a) :
    ∃ before name tail, Below d.root (d.destination a) before name tail := by
  have hdash : '-' ∈ (d.layout.relativePath a).toList := by
    have hname : '-' ∈ (Layout.fileName a).toList := by
      unfold Layout.fileName
      simp only [String.toList_append, List.mem_append]
      exact .inl (.inl (.inl (.inl (.inr (by decide)))))
    unfold Layout.relativePath
    cases d.layout with
    | nested =>
      simp only [String.toList_append, List.mem_append]
      exact .inr hname
    | flat => exact hname
  obtain ⟨s, hs, hmem⟩ : ∃ s ∈ d.relative a, '-' ∈ s :=
    (mem_iff_exists_mem_splitOn (by decide) _).mp hdash
  refine exists_below_pushAll (fun _ hs => not_mem_of_mem_segments hs) hdown ⟨s, hs, ?_⟩ d.root
  rw [isIdle, Bool.or_eq_false_iff, beq_eq_false_iff_ne, beq_eq_false_iff_ne]
  exact ⟨fun heq => by simp [heq] at hmem, fun heq => by simp [heq] at hmem⟩

end Depot
end FeatureDepot
