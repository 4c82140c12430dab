import FeatureDepot.Proofs.Layout.Nested

/-! Where the metadata documents of the nested layout lie. Artifacts whose coordinates all name
directories share a document only if they share the coordinates that it is about. -/
namespace FeatureDepot.Layout
open FeatureDepot.Path

variable {a b : Artifact} {root : Path} {w : Place}

/-- The directory of an artifact: that of its group, and in it the one of its name. -/
def artifactDirectory (root : Path) (a : Artifact) : Path :=
  (root.push (groupDirectory a.group)).push a.name

/-- The directory of one version of an artifact. -/
def versionDirectory (root : Path) (a : Artifact) : Path :=
  (artifactDirectory root a).push a.baseVersion

/-- The document of all versions of an artifact. -/
def artifactDocument (root : Path) (a : Artifact) : Path :=
  (artifactDirectory root a).push metadataName

/-- The document of one version of an artifact. -/
def versionDocument (root : Path) (a : Artifact) : Path :=
  (versionDirectory root a).push metadataName

theorem artifactDocument_eq (root : Path) (a : Artifact) :
    artifactDocument root a = (artifactDirectory root a).push metadataName := rfl

theorem versionDocument_eq (root : Path) (a : Artifact) :
    versionDocument root a = (versionDirectory root a).push metadataName := rfl

/-- Coordinates that lead to a directory of their own: each part of the group, the name and the base
version names a directory. -/
structure FullyNamed (a : Artifact) : Prop where
  plain : a.Plain
  group : [] ∉ a.group.toList.splitOn '.'

theorem artifactDirectory_eq (ha : FullyNamed a) (root : Path) :
    artifactDirectory root a = artifactRoot root a := by
  rw [artifactDirectory, push_groupDirectory ha.plain.group ha.group, artifactRoot]

theorem versionDirectory_eq (ha : FullyNamed a) (root : Path) :
    versionDirectory root a = versionRoot root a := by
  rw [versionDirectory, artifactDirectory_eq ha, versionRoot]

theorem place_artifactDocument (ha : FullyNamed a) (root : Path) :
    (artifactDocument root a).place w = (artifactRoot root a).place w ++ [metadataSegment] := by
  rw [artifactDocument, artifactDirectory_eq ha, place_push_metadataName]

theorem place_versionDocument (ha : FullyNamed a) (root : Path) :
    (versionDocument root a).place w = (versionRoot root a).place w ++ [metadataSegment] := by
  rw [versionDocument, versionDirectory_eq ha, place_push_metadataName]

theorem versionMetadata_eq (ha : FullyNamed a) (root : Path) :
    versionMetadata (nested.filePath root a) = versionDocument root a := by
  rw [versionMetadata_filePath ha.plain, versionDocument, versionDirectory_eq ha]

theorem artifactMetadata_eq (ha : FullyNamed a) (root : Path) :
    artifactMetadata (nested.filePath root a) = artifactDocument root a := by
  rw [artifactMetadata_filePath ha.plain, artifactDocument, artifactDirectory_eq ha]

theorem root_prefix_artifactDirectory (ha : FullyNamed a) (w : Place) (root : Path) :
    root.place w <+: (artifactDirectory root a).place w := by
  rw [artifactDirectory_eq ha, place_artifactRoot ha.plain, List.append_assoc]
  exact List.prefix_append _ _

theorem root_prefix_versionDirectory (ha : FullyNamed a) (w : Place) (root : Path) :
    root.place w <+: (versionDirectory root a).place w := by
  rw [versionDirectory_eq ha, place_versionRoot ha.plain, List.append_assoc]
  exact List.prefix_append _ _

/-- The two documents of an artifact are different ones. -/
theorem place_versionDocument_ne (ha : FullyNamed a) (w : Place) (root : Path) :
    (versionDocument root a).place w ≠ (artifactDocument root a).place w := by
  rw [place_versionDocument ha, place_artifactDocument ha, place_versionRoot ha.plain,
    place_artifactRoot ha.plain]
  intro h
  have hlength := congrArg List.length h
  simp at hlength

theorem versionDirectory_ne_artifactDirectory (ha : FullyNamed a) :
    versionDirectory root a ≠ artifactDirectory root a := by
  intro h
  refine place_versionDocument_ne ha [] root ?_
  rw [versionDocument, h, artifactDocument]

theorem place_artifactDocument_eq_iff (ha : FullyNamed a) (hb : FullyNamed b) :
    (artifactDocument root a).place w = (artifactDocument root b).place w ↔
    b.group = a.group ∧ b.name = a.name := by
  constructor
  · intro h
    rw [place_artifactDocument ha, place_artifactDocument hb] at h
    obtain ⟨hgroup, hname⟩ :=
      eq_of_place_artifactRoot_eq ha.plain hb.plain ha.group hb.group (List.append_cancel_right h)
    exact ⟨hgroup.symm, hname.symm⟩
  · rintro ⟨hgroup, hname⟩
    unfold artifactDocument artifactDirectory
    rw [hgroup, hname]

theorem place_versionDocument_eq_iff (ha : FullyNamed a) (hb : FullyNamed b) :
    (versionDocument root a).place w = (versionDocument root b).place w ↔
      b.group = a.group ∧ b.name = a.name ∧ b.baseVersion = a.baseVersion := by
  constructor
  · intro h
    rw [place_versionDocument ha, place_versionDocument hb] at h
    obtain ⟨hgroup, hname, hbase⟩ :=
      eq_of_place_versionRoot_eq ha.plain hb.plain ha.group hb.group (List.append_cancel_right h)
    exact ⟨hgroup.symm, hname.symm, hbase.symm⟩
  · rintro ⟨hgroup, hname, hbase⟩
    unfold versionDocument versionDirectory artifactDirectory
    rw [hgroup, hname, hbase]

/-- The document of a version is that of another artifact only if their directories are one. -/
theorem place_versionDocument_ne_of_ne (ha : FullyNamed a) (hb : FullyNamed b)
    (h : versionDirectory root a ≠ artifactDirectory root b) :
    (versionDocument root a).place w ≠ (artifactDocument root b).place w := by
  rw [place_versionDocument ha, place_artifactDocument hb]
  intro hplace
  refine h ?_
  rw [versionDirectory_eq ha, artifactDirectory_eq hb]
  exact versionRoot_eq_of_place_eq ha.plain hb.plain (List.append_cancel_right hplace)

end FeatureDepot.Layout
