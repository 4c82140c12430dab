import FeatureDepot.Proofs.Layout.Documents
import FeatureDepot.Proofs.Path.Components

/-! What artifacts share in the nested layout. Group, name, base version and file name are one
component of a path after the other, so two artifacts share a document, or a file, only if they
share the coordinates that it is named for. -/
namespace FeatureDepot.Layout
open FeatureDepot.Path

variable {a b : Artifact} {root : Path} {w : Place} {names : List Segment}

/-- A group is what is left between the dots, whatever follows it. -/
theorem group_append_eq_iff {group other : String} {front back : List Segment}
    (hlength : front.length = back.length) :
    group.toList.splitOn '.' ++ front = other.toList.splitOn '.' ++ back ↔
    group = other ∧ front = back := by
  constructor
  · intro h
    obtain ⟨hgroup, hrest⟩ := List.append_inj' h hlength
    have hjoin := congrArg ['.'].intercalate hgroup
    rw [List.intercalate_splitOn, List.intercalate_splitOn, String.toList_inj] at hjoin
    exact ⟨hjoin, hrest⟩
  · rintro ⟨rfl, rfl⟩
    rfl

lemma components_pushAll (h : ∀ s ∈ names, IsName s) (p : Path) :
    (p.pushAll names).components = p.components ++ names := by
  induction names generalizing p with
  | nil => simp [pushAll]
  | cons s names ih =>
    have hpush : p.pushAll (s :: names) = (p.push (String.ofList s)).pushAll names := rfl
    rw [hpush, ih fun t ht => h t (List.mem_cons_of_mem _ ht),
      components_push_name (h s List.mem_cons_self), List.append_assoc, List.singleton_append]

/-- The components of an artifact's file: those of the root, and behind them what the artifact is
filed under. -/
theorem components_filePath (ha : FullyNamed a) (root : Path) :
    (nested.filePath root a).components = root.components ++
    a.group.toList.splitOn '.' ++ [a.name.toList, a.baseVersion.toList, (fileName a).toList] := by
  have hgroup : (groupRoot root a.group).components =
      root.components ++ a.group.toList.splitOn '.' := by
    rw [groupRoot, components_pushAll (isName_of_mem_groupNames ha.plain.group),
      groupNames_eq ha.group]
  have hname := components_push_name ha.plain.name (groupRoot root a.group)
  have hbase := components_push_name ha.plain.baseVersion (artifactRoot root a)
  have hfile :=
    components_push_name (Artifact.isName_fileName ha.plain.fileName) (versionRoot root a)
  rw [String.ofList_toList] at hname hbase hfile
  rw [filePath_nested ha.plain, hfile, versionRoot, hbase, artifactRoot, hname, hgroup]
  simp

/-- The documents of a file stand in the place of its last component, and of its last two. -/
theorem components_documents {file directory upper : Path}
    (hdirectory : file.parent? = some directory) (hupper : directory.parent? = some upper) :
    (versionMetadata file).components = file.components.dropLast ++ [metadataSegment] ∧
    (artifactMetadata file).components = file.components.dropLast.dropLast ++
      [metadataSegment] := by
  have hmetadata (p : Path) : (p.push metadataName).components =
      p.components ++ [metadataSegment] := components_push_name isName_metadataSegment p
  have hfile : directoryOf file = directory := by rw [directoryOf, hdirectory, Option.getD_some]
  constructor
  · rw [versionMetadata, hmetadata, hfile, components_parent? hdirectory]
  · rw [artifactMetadata, hmetadata, hfile, hupper, Option.getD_some, components_parent? hupper,
      components_parent? hdirectory]

/-- The documents of an artifact, component by component: in the directory of its version, and in
that of its name. -/
theorem components_metadata (ha : FullyNamed a) (root : Path) :
    (versionMetadata (nested.filePath root a)).components =
      root.components ++ a.group.toList.splitOn '.' ++
        [a.name.toList, a.baseVersion.toList, metadataSegment] ∧
    (artifactMetadata (nested.filePath root a)).components =
      root.components ++ a.group.toList.splitOn '.' ++ [a.name.toList, metadataSegment] := by
  obtain ⟨hversion, hartifact⟩ :=
    components_documents (parent?_filePath ha.plain root) (parent?_versionRoot ha.plain root)
  rw [hversion, hartifact, components_filePath ha]
  simp

lemma components_versionMetadata_eq_iff (ha : FullyNamed a) (hb : FullyNamed b) :
    (versionMetadata (nested.filePath root a)).components =
      (versionMetadata (nested.filePath root b)).components ↔
      a.group = b.group ∧ a.name = b.name ∧ a.baseVersion = b.baseVersion := by
  rw [(components_metadata ha root).1, (components_metadata hb root).1, List.append_assoc,
    List.append_assoc, List.append_right_inj, group_append_eq_iff (by rfl)]
  simp [String.toList_inj]

lemma components_artifactMetadata_eq_iff (ha : FullyNamed a) (hb : FullyNamed b) :
    (artifactMetadata (nested.filePath root a)).components =
      (artifactMetadata (nested.filePath root b)).components ↔
      a.group = b.group ∧ a.name = b.name := by
  rw [(components_metadata ha root).2, (components_metadata hb root).2, List.append_assoc,
    List.append_assoc, List.append_right_inj, group_append_eq_iff (by rfl)]
  simp [String.toList_inj]

/-- Where the files of an artifact lie whose coordinates all name directories, component by
component. Under one root, two such artifacts share the document of a version if and only if they
have the same group, name and base version, and the document of all versions if and only if they
have the same group and name, whether documents are told apart by their paths or by the places that
these lead to. -/
theorem components_nested {here : String} (h : Location.artifact? here = some a)
    (hgroup : [] ∉ a.group.toList.splitOn '.') (hname : a.name ≠ "." ∧ a.name ≠ "..")
    (hbase : a.baseVersion ≠ "." ∧ a.baseVersion ≠ "..") (root : Path) :
    (nested.filePath root a).components = root.components ++ a.group.toList.splitOn '.' ++
        [a.name.toList, a.baseVersion.toList, (fileName a).toList] ∧
    (versionMetadata (nested.filePath root a)).components =
      root.components ++ a.group.toList.splitOn '.' ++
        [a.name.toList, a.baseVersion.toList, metadataSegment] ∧
    (artifactMetadata (nested.filePath root a)).components =
      root.components ++ a.group.toList.splitOn '.' ++
        [a.name.toList, metadataSegment] ∧
    versionMetadata (nested.filePath root a) = versionDocument root a ∧
    artifactMetadata (nested.filePath root a) = artifactDocument root a ∧
    ∀ there b, Location.artifact? there = some b → [] ∉ b.group.toList.splitOn '.' →
      b.name ≠ "." ∧ b.name ≠ ".." → b.baseVersion ≠ "." ∧ b.baseVersion ≠ ".." →
      ((versionMetadata (nested.filePath root a)).components =
        (versionMetadata (nested.filePath root b)).components ↔
        a.group = b.group ∧ a.name = b.name ∧ a.baseVersion = b.baseVersion) ∧
      ((artifactMetadata (nested.filePath root a)).components =
        (artifactMetadata (nested.filePath root b)).components ↔
        a.group = b.group ∧ a.name = b.name) ∧
      ∀ w, ((versionMetadata (nested.filePath root a)).place w =
        (versionMetadata (nested.filePath root b)).place w ↔
          a.group = b.group ∧ a.name = b.name ∧ a.baseVersion = b.baseVersion) ∧
        ((artifactMetadata (nested.filePath root a)).place w =
          (artifactMetadata (nested.filePath root b)).place w ↔
          a.group = b.group ∧ a.name = b.name) := by
  have ha : FullyNamed a := ⟨Location.plain_of_artifact? h hname hbase, hgroup⟩
  obtain ⟨hversion, hartifact⟩ := components_metadata ha root
  refine ⟨components_filePath ha root, hversion, hartifact, versionMetadata_eq ha root,
    artifactMetadata_eq ha root, ?_⟩
  intro there b h' hgroup' hname' hbase'
  have hb : FullyNamed b := ⟨Location.plain_of_artifact? h' hname' hbase', hgroup'⟩
  refine ⟨components_versionMetadata_eq_iff ha hb,
    components_artifactMetadata_eq_iff ha hb, fun w => ?_⟩
  rw [versionMetadata_eq ha, versionMetadata_eq hb, artifactMetadata_eq ha, artifactMetadata_eq hb]
  constructor
  · rw [place_versionDocument_eq_iff ha hb, @eq_comm _ b.group, @eq_comm _ b.name,
      @eq_comm _ b.baseVersion]
  · rw [place_artifactDocument_eq_iff ha hb, @eq_comm _ b.group, @eq_comm _ b.name]

/-- Every deployment of a snapshot shares its documents, below a root of dots as below any other. -/
theorem components_nested_snapshot :
    Location.artifact? "mvn:g.h/i/1-SNAPSHOT" = some (.ofVersionText "g.h" "i" "1-SNAPSHOT") ∧
    Location.artifact? "mvn:g.h/i/1-20240101.123456-1" =
      some (.ofVersionText "g.h" "i" "1-20240101.123456-1") ∧
    (versionMetadata
      (nested.filePath ⟨"./x/../"⟩ (.ofVersionText "g.h" "i" "1-SNAPSHOT"))).components =
      [['.'], ['x'], ['.', '.'], ['g'], ['h'], ['i'], "1-SNAPSHOT".toList, metadataSegment] ∧
    (versionMetadata
      (nested.filePath ⟨"./x/../"⟩ (.ofVersionText "g.h" "i" "1-20240101.123456-1"))).components =
    [['.'], ['x'], ['.', '.'], ['g'], ['h'], ['i'], "1-SNAPSHOT".toList, metadataSegment] := by
  have hbase : Location.artifact? "mvn:g.h/i/1-SNAPSHOT" =
      some (.ofVersionText "g.h" "i" "1-SNAPSHOT") := by decide +kernel
  have hdeployed : Location.artifact? "mvn:g.h/i/1-20240101.123456-1" =
      some (.ofVersionText "g.h" "i" "1-20240101.123456-1") := by decide +kernel
  obtain ⟨-, hversion, -, -, -, hshared⟩ :=
    components_nested hbase (by decide +kernel) (by decide +kernel) (by decide +kernel) ⟨"./x/../"⟩
  have hsame :=
    (hshared _ _ hdeployed (by decide +kernel) (by decide +kernel) (by decide +kernel)).1.mpr
      (by decide +kernel)
  have hplace :
      (versionMetadata
        (nested.filePath ⟨"./x/../"⟩ (.ofVersionText "g.h" "i" "1-SNAPSHOT"))).components =
      [['.'], ['x'], ['.', '.'], ['g'], ['h'], ['i'], "1-SNAPSHOT".toList, metadataSegment] := by
    rw [hversion]
    decide +kernel
  exact ⟨hbase, hdeployed, hplace, hsame.symm.trans hplace⟩

/-- What a file's name has behind the base version: the classifier, if there is one, and the
extension. -/
def ending (a : Artifact) : String := a.classifier.elim "" ("-" ++ ·) ++ "." ++ a.extension

lemma fileName_eq (a : Artifact) : fileName a = a.name ++ "-" ++ a.baseVersion ++ ending a := by
  obtain ⟨group, name, version, - | c, extension⟩ :=
    a <;> simp [fileName, ending, String.append_assoc]

/-- An ending is read from its last dot: in front of that stands the classifier, unless the
extension has a dot. -/
theorem cutLast?_ending (h : '.' ∉ a.extension.toList) : Text.cutLast? '.' (ending a).toList =
    some ((a.classifier.elim "" ("-" ++ ·)).toList, a.extension.toList) := by
  have hending : (ending a).toList = (a.classifier.elim "" ("-" ++ ·)).toList ++ '.' ::
      a.extension.toList := by
    simp [ending, String.toList_append]
  rw [hending, Text.cutLast?_append h]

lemma ending_inj (ha : '.' ∉ a.extension.toList) (hb : '.' ∉ b.extension.toList)
    (h : ending a = ending b) :
    a.classifier = b.classifier ∧ a.extension = b.extension := by
  have hcut := cutLast?_ending ha
  rw [h, cutLast?_ending hb] at hcut
  simp only [Option.some.injEq, Prod.mk.injEq, String.toList_inj] at hcut
  obtain ⟨hclassifier, hextension⟩ := hcut
  refine ⟨?_, hextension.symm⟩
  cases hca : a.classifier <;> cases hcb : b.classifier <;>
    simp_all [← String.toList_inj]

/-- The path below the root is cut at its last slashes, and the file name behind the name and the
base version that the directories repeat. -/
theorem relativePath_nested_eq_iff (ha : a.Slashless) (hb : b.Slashless) :
    nested.relativePath a = nested.relativePath b ↔
      a.group = b.group ∧ a.name = b.name ∧ a.baseVersion = b.baseVersion ∧
      ending a = ending b := by
  constructor
  · intro h
    have hsegments := segments_relativePath ha
    rw [h, segments_relativePath hb, group_append_eq_iff (by rfl)] at hsegments
    obtain ⟨hgroup, hrest⟩ := hsegments
    simp only [List.cons.injEq, String.toList_inj, and_true] at hrest
    obtain ⟨hname, hbase, hfile⟩ := hrest
    rw [fileName_eq, fileName_eq, hname, hbase, String.append_right_inj] at hfile
    exact ⟨hgroup.symm, hname.symm, hbase.symm, hfile.symm⟩
  · rintro ⟨hgroup, hname, hbase, hending⟩
    unfold relativePath
    rw [fileName_eq, fileName_eq, hgroup, hname, hbase, hending]

/-- Artifacts that are filed under one path have group, name and base version in common, and what
stands behind these in the name of the file. Unless an extension has a dot, this is one classifier
and one extension. -/
theorem relativePath_nested_inj {here there : String} (ha : Location.artifact? here = some a)
    (hb : Location.artifact? there = some b) (h : nested.relativePath a = nested.relativePath b) :
    (a.group = b.group ∧ a.name = b.name ∧ a.baseVersion = b.baseVersion ∧ ending a = ending b) ∧
    ('.' ∉ a.extension.toList → '.' ∉ b.extension.toList →
      a.classifier = b.classifier ∧ a.extension = b.extension) := by
  have hparts :=
    (relativePath_nested_eq_iff (Location.slashless_of_artifact? ha)
      (Location.slashless_of_artifact? hb)).mp h
  exact ⟨hparts, fun hdot hdot' => ending_inj hdot hdot' hparts.2.2.2⟩

/-- A deployment and its snapshot are filed under one path. -/
theorem relativePath_nested_inj_snapshot :
    Location.artifact? "mvn:g.h/a/1-20240101.123456-1" =
      some (.ofVersionText "g.h" "a" "1-20240101.123456-1") ∧
    Location.artifact? "mvn:g.h/a/1-SNAPSHOT" = some (.ofVersionText "g.h" "a" "1-SNAPSHOT") ∧
    nested.relativePath (.ofVersionText "g.h" "a" "1-20240101.123456-1") =
      nested.relativePath (.ofVersionText "g.h" "a" "1-SNAPSHOT") ∧
    Artifact.baseVersion (.ofVersionText "g.h" "a" "1-20240101.123456-1") = "1-SNAPSHOT" := by
  have ha : Location.artifact? "mvn:g.h/a/1-20240101.123456-1" =
      some (.ofVersionText "g.h" "a" "1-20240101.123456-1") := by decide +kernel
  have hb : Location.artifact? "mvn:g.h/a/1-SNAPSHOT" =
      some (.ofVersionText "g.h" "a" "1-SNAPSHOT") := by decide +kernel
  have hpath : nested.relativePath (.ofVersionText "g.h" "a" "1-20240101.123456-1") =
      nested.relativePath (.ofVersionText "g.h" "a" "1-SNAPSHOT") := by decide +kernel
  obtain ⟨⟨-, -, hbase, -⟩, -⟩ := relativePath_nested_inj ha hb hpath
  exact ⟨ha, hb, hpath, hbase.trans (by decide +kernel)⟩

/-- An extension with a dot can take the end of a classifier with it. -/
example : (Location.artifact? "mvn:g/a/1/b.c/x").map nested.relativePath = some "g/a/1/a-1-x.b.c" ∧
    (Location.artifact? "mvn:g/a/1/c/x.b").map nested.relativePath = some "g/a/1/a-1-x.b.c" := by
  decide +kernel

end FeatureDepot.Layout
