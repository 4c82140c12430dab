import FeatureDepot.Proofs.Depot.Checksums
import FeatureDepot.Proofs.Layout.Coordinates

/-! The nested layout: group, name and base version are directories below the root, and metadata
documents lie in the last two of them. Artifacts with plain coordinates have one place for each
path. -/
namespace FeatureDepot
open FeatureDepot.Path

lemma splitOn_map_eq {sep other : Char} {cs : List Char} (h : sep ∉ cs) :
    (cs.map fun c => if c = other then sep else c).splitOn sep = cs.splitOn other := by
  induction cs with
  | nil => rfl
  | cons c cs ih =>
    obtain ⟨hc, hcs⟩ : sep ≠ c ∧ sep ∉ cs := by simpa using h
    rw [List.map_cons, List.splitOn_cons_eq_if_modifyHead,
      List.splitOn_cons_eq_if_modifyHead, ih hcs]
    by_cases hother : c = other
    · simp [hother]
    · simp [hother, Ne.symm hc]

namespace Path

variable {p q : Path} {s t : Segment} {w : Place} {segments : List Segment}

/-- Segments pushed one after the other. -/
def pushAll (p : Path) (segments : List Segment) : Path :=
  segments.foldl (fun p s => p.push (String.ofList s)) p

/-- A slash at the end goes unnoticed when a name follows. -/
theorem push_nil_push (hs : IsName s) :
    (p.push "").push (String.ofList s) = p.push (String.ofList s) := by
  have hhead := hs.head?_ne
  have hnil : ("" : String).toList.head? ≠ some '/' := by decide
  unfold push
  rw [if_neg hhead, if_neg hhead, if_neg hnil]
  by_cases hlast : p.text.toList.getLast?.all (· == '/')
  · simp [hlast]
  · rw [if_neg hlast, if_neg hlast, String.append_empty]
    simp

/-- Pushing segments leads where walking along them does. -/
theorem place_pushAll_eq_foldl (h : ∀ s ∈ segments, '/' ∉ s) :
    (p.pushAll segments).place w = segments.foldl enter (p.place w) := by
  induction segments generalizing p with
  | nil => rfl
  | cons s segments ih =>
    have hs : '/' ∉ s := h s List.mem_cons_self
    have hhead : (String.ofList s).toList.head? ≠ some '/' := by
      rw [String.toList_ofList]
      exact fun hhead => hs (List.mem_of_mem_head? hhead)
    have hrest := ih (p := p.push (String.ofList s)) fun t ht => h t (List.mem_cons_of_mem _ ht)
    rw [pushAll] at hrest ⊢
    rw [List.foldl_cons, hrest, place_push hhead, String.toList_ofList,
      List.splitOn_eq_singleton hs]
    rfl

lemma foldl_enter_of_isName {place : Place} (h : ∀ s ∈ segments, s = [] ∨ IsName s) :
    segments.foldl enter place = place ++ segments.filter (! ·.isEmpty) := by
  induction segments generalizing place with
  | nil => simp
  | cons s segments ih =>
    rw [List.foldl_cons, ih fun t ht => h t (List.mem_cons_of_mem _ ht)]
    rcases h s List.mem_cons_self with rfl | hs
    · rw [enter_of_isIdle _ rfl, List.filter_cons_of_neg (by simp)]
    · rw [enter_of_isName _ hs, List.filter_cons_of_pos (by simpa using hs.ne_nil),
        List.append_assoc, List.singleton_append]

lemma place_pushAll (h : ∀ s ∈ segments, s = [] ∨ IsName s) :
    (p.pushAll segments).place w = p.place w ++ segments.filter (! ·.isEmpty) := by
  have hslash : ∀ s ∈ segments, '/' ∉ s := by
    intro s hs
    rcases h s hs with rfl | hname
    · exact List.not_mem_nil
    · exact hname.1
  rw [place_pushAll_eq_foldl hslash, foldl_enter_of_isName h]

lemma push_nil_pushAll (h : ∀ s ∈ segments, IsName s) (ht : IsName t) :
    ((p.push "").pushAll segments).push (String.ofList t) =
      (p.pushAll segments).push (String.ofList t) := by
  cases segments with
  | nil => exact push_nil_push ht
  | cons s segments =>
    unfold pushAll
    rw [List.foldl_cons, List.foldl_cons, push_nil_push (h s List.mem_cons_self)]

/-- Empty segments leave no trace in the text once a name is pushed. -/
theorem pushAll_push (h : ∀ s ∈ segments, s = [] ∨ IsName s) (ht : IsName t) :
    (p.pushAll segments).push (String.ofList t) =
      (p.pushAll (segments.filter (! ·.isEmpty))).push (String.ofList t) := by
  induction segments generalizing p with
  | nil => rfl
  | cons s segments ih =>
    have htail : ∀ r ∈ segments, r = [] ∨ IsName r := fun r hr => h r (List.mem_cons_of_mem _ hr)
    have hnames : ∀ r ∈ segments.filter (! ·.isEmpty), IsName r := by
      intro r hr
      obtain ⟨hmem, hne⟩ := List.mem_filter.mp hr
      exact (htail r hmem).resolve_left (by simpa using hne)
    have hstep : ∀ names, p.pushAll (s :: names) = (p.push (String.ofList s)).pushAll names :=
      fun _ => rfl
    rw [hstep, ih htail]
    rcases h s List.mem_cons_self with rfl | hs
    · rw [List.filter_cons_of_neg (by simp), String.ofList_nil, push_nil_pushAll hnames ht]
    · rw [List.filter_cons_of_pos (by simpa using hs.ne_nil), hstep]

/-- What is pushed onto a name is pushed with it. -/
theorem push_push {below : String} (hs : IsName s) (h : below.toList.head? ≠ some '/') :
    (p.push (String.ofList s)).push below = p.push (String.ofList s ++ "/" ++ below) := by
  have hhead : (String.ofList s ++ "/" ++ below).toList.head? ≠ some '/' := by
    have hs' := hs.head?_ne
    rw [String.toList_ofList] at hs'
    rw [String.toList_append, String.toList_append, String.toList_ofList, List.append_assoc,
      List.head?_append_of_ne_nil _ hs.ne_nil]
    exact hs'
  have hlast : ¬ (p.push (String.ofList s)).text.toList.getLast?.all (· == '/') := by
    rw [← getLast?_segments, segments_push_name hs, List.getLast?_concat, Option.some.injEq]
    exact hs.ne_nil
  conv_lhs => rw [push, if_neg h, if_neg hlast]
  unfold push
  rw [if_neg hs.head?_ne, if_neg hhead]
  split <;> simp [String.append_assoc]

/-- Names that are pushed one after the other can be pushed at once, with slashes between them. -/
theorem pushAll_eq_push (hne : segments ≠ []) (h : ∀ s ∈ segments, IsName s) :
    p.pushAll segments = p.push (String.ofList (['/'].intercalate segments)) := by
  induction segments generalizing p with
  | nil => exact absurd rfl hne
  | cons s segments ih =>
    cases segments with
    | nil => simp [pushAll]
    | cons t segments =>
      have ht : ∀ r ∈ t :: segments, IsName r := fun r hr => h r (List.mem_cons_of_mem _ hr)
      have hhead : (String.ofList (['/'].intercalate (t :: segments))).toList.head? ≠ some '/' := by
        have htail := (ht t List.mem_cons_self).head?_ne
        rw [String.toList_ofList] at htail ⊢
        cases segments with
        | nil => simpa using htail
        | cons r segments =>
          rwa [List.intercalate_cons_of_ne_nil (by simp), List.append_assoc,
            List.head?_append_of_ne_nil _ (ht t List.mem_cons_self).ne_nil]
      have hstep : p.pushAll (s :: t :: segments) =
          (p.push (String.ofList s)).pushAll (t :: segments) := rfl
      have hjoin : ['/'].intercalate (s :: t :: segments) = s ++ ['/'] ++
          ['/'].intercalate (t :: segments) := List.intercalate_cons_of_ne_nil (by simp)
      have htext : String.ofList s ++ "/" ++ String.ofList (['/'].intercalate (t :: segments)) =
          String.ofList (s ++ ['/'] ++ ['/'].intercalate (t :: segments)) := by
        simp [← String.toList_inj]
      rw [hstep, ih (by simp) ht, push_push (h s List.mem_cons_self) hhead, hjoin, htext]

end Path

namespace Layout

variable {root : Path} {group : String} {a b : Artifact} {w : Place}

/-- The directories of a group. -/
def groupNames (group : String) : List Segment := (group.toList.splitOn '.').filter (! ·.isEmpty)

/-- The directory of a group below the root. -/
def groupRoot (root : Path) (group : String) : Path := root.pushAll (groupNames group)

/-- The directory of all versions of an artifact. -/
def artifactRoot (root : Path) (a : Artifact) : Path := (groupRoot root a.group).push a.name

/-- The directory of one version of an artifact. -/
def versionRoot (root : Path) (a : Artifact) : Path := (artifactRoot root a).push a.baseVersion

theorem eq_nil_or_isName (hgroup : '/' ∉ group.toList) :
    ∀ s ∈ group.toList.splitOn '.', s = [] ∨ IsName s := by
  intro s hs
  have hdot : '.' ∉ s := not_mem_of_mem_splitOn hs
  rw [← splitOn_map_eq hgroup] at hs
  have hslash : '/' ∉ s := not_mem_of_mem_splitOn hs
  by_cases hnil : s = []
  · exact .inl hnil
  · refine .inr (isName_of_ne hslash hnil ?_ ?_)
    · rintro rfl
      simp at hdot
    · rintro rfl
      simp at hdot

theorem isName_of_mem_groupNames (hgroup : '/' ∉ group.toList) :
    ∀ s ∈ groupNames group, IsName s := by
  intro s hs
  obtain ⟨hmem, hne⟩ := List.mem_filter.mp hs
  exact (eq_nil_or_isName hgroup s hmem).resolve_left (by simpa using hne)

theorem segments_relativePath (ha : a.Slashless) : (Path.mk (nested.relativePath a)).segments =
    a.group.toList.splitOn '.' ++ [a.name.toList, a.baseVersion.toList, (fileName a).toList] := by
  have htext : (nested.relativePath a).toList =
      a.group.toList.map (fun c => if c = '.' then '/' else c) ++ '/' ::
        (a.name.toList ++ '/' :: (a.baseVersion.toList ++ '/' :: (fileName a).toList)) := by
    unfold relativePath groupDirectory
    simp [String.toList_append]
  unfold Path.segments
  rw [htext, List.splitOn_append_cons_self, splitOn_map_eq ha.group, List.splitOn_append_cons_self,
    List.splitOn_eq_singleton ha.name.2, List.splitOn_append_cons_self,
    List.splitOn_eq_singleton ha.baseVersion.2, List.splitOn_eq_singleton ha.fileName]
  simp

/-- The file of an artifact lies in the directory of its version. -/
theorem filePath_nested (ha : a.Plain) (root : Path) :
    nested.filePath root a = (versionRoot root a).push (fileName a) := by
  have hname : (String.ofList a.name.toList) = a.name := String.ofList_toList
  have hpush := pushAll_push (p := root) (eq_nil_or_isName ha.group) ha.name
  rw [hname] at hpush
  unfold filePath versionRoot artifactRoot groupRoot groupNames
  rw [segments_relativePath ha.slashless, List.foldl_append, ← hpush]
  simp [pushAll]

lemma place_groupRoot (hgroup : '/' ∉ group.toList) (root : Path) :
    (groupRoot root group).place w = root.place w ++ groupNames group := by
  have hnames := isName_of_mem_groupNames hgroup
  unfold groupRoot
  rw [place_pushAll fun s hs => .inr (hnames s hs), List.filter_eq_self.mpr]
  intro s hs
  simpa using (hnames s hs).ne_nil

theorem place_artifactRoot (ha : a.Plain) (root : Path) :
    (artifactRoot root a).place w = root.place w ++ groupNames a.group ++ [a.name.toList] := by
  have hpush := place_push_name (p := groupRoot root a.group) (w := w) ha.name
  rw [String.ofList_toList] at hpush
  rw [artifactRoot, hpush, place_groupRoot ha.group]

theorem place_versionRoot (ha : a.Plain) (root : Path) :
    (versionRoot root a).place w =
      root.place w ++ groupNames a.group ++ [a.name.toList, a.baseVersion.toList] := by
  have hpush := place_push_name (p := artifactRoot root a) (w := w) ha.baseVersion
  rw [String.ofList_toList] at hpush
  rw [versionRoot, hpush, place_artifactRoot ha, List.append_assoc _ [_], List.singleton_append]

theorem place_filePath (ha : a.Plain) (root : Path) : (nested.filePath root a).place w =
    root.place w ++ groupNames a.group ++ [a.name.toList, a.baseVersion.toList,
      (fileName a).toList] := by
  have hpush :=
    place_push_name (p := versionRoot root a) (w := w) (Artifact.isName_fileName ha.fileName)
  rw [String.ofList_toList] at hpush
  rw [filePath_nested ha, hpush, place_versionRoot ha, List.append_assoc _ [_, _]]
  rfl

theorem leaf?_filePath (ha : a.Plain) (root : Path) :
    (nested.filePath root a).leaf? = some (fileName a).toList := by
  have hleaf := leaf?_push_name (p := versionRoot root a) (Artifact.isName_fileName ha.fileName)
  rw [String.ofList_toList] at hleaf
  rw [filePath_nested ha, hleaf]

/-- Different files lie at different places. -/
theorem filePath_eq_of_place_eq (ha : a.Plain) (hb : b.Plain) {root : Path}
    (h : (nested.filePath root a).place w = (nested.filePath root b).place w) :
    nested.filePath root a = nested.filePath root b := by
  rw [place_filePath ha, place_filePath hb, List.append_assoc, List.append_assoc] at h
  obtain ⟨hgroup, hnames⟩ := List.append_inj' (List.append_cancel_left h) rfl
  simp only [List.cons.injEq, String.toList_inj, and_true] at hnames
  obtain ⟨hname, hbase, hfile⟩ := hnames
  rw [filePath_nested ha, filePath_nested hb]
  unfold versionRoot artifactRoot groupRoot
  rw [hgroup, hname, hbase, hfile]

theorem parent?_filePath (ha : a.Plain) (root : Path) :
    (nested.filePath root a).parent? = some (versionRoot root a) := by
  have hparent := parent?_push_push (p := artifactRoot root a) ha.baseVersion
    (Artifact.isName_fileName ha.fileName)
  rw [String.ofList_toList, String.ofList_toList] at hparent
  rw [filePath_nested ha, versionRoot, hparent]

theorem parent?_versionRoot (ha : a.Plain) (root : Path) :
    (versionRoot root a).parent? = some (artifactRoot root a) := by
  have hparent := parent?_push_push (p := groupRoot root a.group) ha.name ha.baseVersion
  rw [String.ofList_toList, String.ofList_toList] at hparent
  rw [versionRoot, artifactRoot, hparent]

lemma directoryOf_filePath (ha : a.Plain) (root : Path) :
    directoryOf (nested.filePath root a) = versionRoot root a := by
  rw [directoryOf, parent?_filePath ha, Option.getD_some]

/-- The document of a version lies in its directory. -/
theorem versionMetadata_filePath (ha : a.Plain) (root : Path) :
    versionMetadata (nested.filePath root a) = (versionRoot root a).push metadataName := by
  rw [versionMetadata, directoryOf_filePath ha]

/-- The document of all versions lies in the directory of the artifact. -/
theorem artifactMetadata_filePath (ha : a.Plain) (root : Path) :
    artifactMetadata (nested.filePath root a) = (artifactRoot root a).push metadataName := by
  rw [artifactMetadata, directoryOf_filePath ha, parent?_versionRoot ha, Option.getD_some]

/-- A group without empty parts has a directory for each of its parts. -/
theorem groupNames_eq (h : [] ∉ group.toList.splitOn '.') :
    groupNames group = group.toList.splitOn '.' := by
  refine List.filter_eq_self.mpr fun s hs => ?_
  have hne : s ≠ [] := by
    rintro rfl
    exact h hs
  simpa using hne

lemma groupNames_inj {other : String} (h : [] ∉ group.toList.splitOn '.')
    (h' : [] ∉ other.toList.splitOn '.') (heq : groupNames group = groupNames other) :
    group = other := by
  rw [groupNames_eq h, groupNames_eq h'] at heq
  have hjoin := congrArg ['.'].intercalate heq
  rwa [List.intercalate_splitOn, List.intercalate_splitOn, String.toList_inj] at hjoin

/-- The directories of a group without empty parts, pushed at once. -/
theorem push_groupDirectory (hslash : '/' ∉ group.toList) (h : [] ∉ group.toList.splitOn '.')
    (root : Path) :
    root.push (groupDirectory group) = groupRoot root group := by
  rw [groupRoot, pushAll_eq_push _ (isName_of_mem_groupNames hslash), groupNames_eq h,
    ← splitOn_map_eq hslash, List.intercalate_splitOn, groupDirectory]
  rw [groupNames_eq h]
  exact List.splitOn_ne_nil _ _

/-- Artifacts that share the directory of all their versions have the same group and name. -/
theorem eq_of_place_artifactRoot_eq (ha : a.Plain) (hb : b.Plain)
    (hgroup : [] ∉ a.group.toList.splitOn '.') (hgroup' : [] ∉ b.group.toList.splitOn '.')
    (h : (artifactRoot root a).place w = (artifactRoot root b).place w) :
    a.group = b.group ∧ a.name = b.name := by
  rw [place_artifactRoot ha, place_artifactRoot hb, List.append_assoc, List.append_assoc] at h
  obtain ⟨hgroups, hnames⟩ := List.append_inj' (List.append_cancel_left h) rfl
  exact ⟨groupNames_inj hgroup hgroup' hgroups, String.toList_inj.mp (List.singleton_inj.mp hnames)⟩

/-- Artifacts that share the directory of their version have the same base version, besides. -/
theorem eq_of_place_versionRoot_eq (ha : a.Plain) (hb : b.Plain)
    (hgroup : [] ∉ a.group.toList.splitOn '.') (hgroup' : [] ∉ b.group.toList.splitOn '.')
    (h : (versionRoot root a).place w = (versionRoot root b).place w) :
    a.group = b.group ∧ a.name = b.name ∧ a.baseVersion = b.baseVersion := by
  rw [place_versionRoot ha, place_versionRoot hb, List.append_assoc, List.append_assoc] at h
  obtain ⟨hgroups, hnames⟩ := List.append_inj' (List.append_cancel_left h) rfl
  simp only [List.cons.injEq, String.toList_inj, and_true] at hnames
  exact ⟨groupNames_inj hgroup hgroup' hgroups, hnames⟩

/-- The directory of a version is at the place of the directory of another artifact only if both
have one path. -/
theorem versionRoot_eq_of_place_eq (ha : a.Plain) (hb : b.Plain)
    (h : (versionRoot root a).place w = (artifactRoot root b).place w) :
    versionRoot root a = artifactRoot root b := by
  rw [place_versionRoot ha, place_artifactRoot hb, List.append_assoc, List.append_assoc,
    ← List.singleton_append, ← List.append_assoc (groupNames a.group)] at h
  obtain ⟨hgroups, hnames⟩ := List.append_inj' (List.append_cancel_left h) rfl
  have hbase : a.baseVersion = b.name := String.toList_inj.mp (List.singleton_inj.mp hnames)
  have hroot : groupRoot root b.group = (groupRoot root a.group).push a.name := by
    unfold groupRoot pushAll
    rw [← hgroups, List.foldl_append, List.foldl_cons, List.foldl_nil, String.ofList_toList]
  unfold versionRoot artifactRoot
  rw [hroot, hbase]

theorem place_push_metadataName (p : Path) :
    (p.push metadataName).place w = p.place w ++ [metadataSegment] :=
  place_push_name isName_metadataSegment

end Layout
end FeatureDepot
