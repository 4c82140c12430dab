import FeatureDepot.Artifact
import FeatureDepot.Path

/-! Where the files of a repository lie: the file of an artifact in either layout, and the metadata
documents of its version and of all its versions. -/
namespace FeatureDepot

/-- A tree by group, name and version, or all files in one directory. -/
inductive Layout
  | nested
  | flat
  deriving DecidableEq, Repr

namespace Layout

def ofFlat (flat : Bool) : Layout := if flat then .flat else .nested

/-- The name of an artifact's file. -/
def fileName (a : Artifact) : String :=
  let classifier := match a.classifier with
    | some c => "-" ++ c
    | none => ""
  a.name ++ "-" ++ a.baseVersion ++ classifier ++ "." ++ a.extension

/-- The directories of a group: its dots separate them. -/
def groupDirectory (group : String) : String :=
  String.ofList (group.toList.map fun c => if c = '.' then '/' else c)

/-- The path of an artifact's file below the root of a repository. -/
def relativePath (layout : Layout) (a : Artifact) : String :=
  match layout with
  | nested => groupDirectory a.group ++ "/" ++ a.name ++ "/" ++ a.baseVersion ++ "/" ++ fileName a
  | flat => fileName a

/-- The path of an artifact's file, built from the root segment by segment. -/
def filePath (layout : Layout) (root : Path) (a : Artifact) : Path :=
  (Path.mk (layout.relativePath a)).segments.foldl (fun p s => p.push (String.ofList s)) root

/-- The name of every metadata document. -/
def metadataName : String := "maven-metadata.xml"

/-- The directory that a file's path names. -/
def directoryOf (file : Path) : Path := file.parent?.getD ⟨""⟩

/-- The metadata document of one version lies beside the artifact's file. -/
def versionMetadata (file : Path) : Path := (directoryOf file).push metadataName

/-- The metadata document of all versions lies one directory above the file. -/
def artifactMetadata (file : Path) : Path :=
  (((directoryOf file).parent?).getD ((directoryOf file).push "..")).push metadataName

example : artifactMetadata ⟨"repo/bar-1.0.jar"⟩ = ⟨"maven-metadata.xml"⟩ := by decide +kernel

example : artifactMetadata ⟨"bar-1.0.jar"⟩ = ⟨"../maven-metadata.xml"⟩ := by decide +kernel

end Layout
end FeatureDepot
