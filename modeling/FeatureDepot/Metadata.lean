import FeatureDepot.Artifact
import FeatureDepot.Markup.Record
import FeatureDepot.Markup.Writer

/-! Metadata documents of a repository: which artifact they are about, which versions of it there
are, and which local copy was made when. -/
namespace FeatureDepot

/-- What is known of a snapshot. -/
structure Snapshot where
  timestamp : Option String := none
  buildNumber : Option UInt32 := none
  localCopy : Option Bool := none
  deriving DecidableEq, Repr

/-- The versions of an artifact. -/
structure Versioning where
  latest : Option String := none
  release : Option String := none
  snapshot : Option Snapshot := none
  versions : List String := []
  lastUpdated : Option String := none
  deriving DecidableEq, Repr

/-- A metadata document. -/
structure Metadata extends Versioning where
  modelVersion : Option String := none
  group : Option String := none
  name : Option String := none
  version : Option String := none
  deriving DecidableEq, Repr

namespace Metadata

/-- The version of the format of documents that are written. -/
def currentModel : String := "1.1.0"

/-- Appends a version to the list, unless it is there. -/
def addVersion (m : Metadata) (version : String) : Metadata :=
  if version ∈ m.versions then m else { m with versions := m.versions ++ [version] }

/-- Makes a document one about an artifact. -/
def describe (m : Metadata) (a : Artifact) : Metadata :=
  { m with group := some a.group, name := some a.name, modelVersion := some currentModel }

/-- Adds an artifact to the document of all versions. -/
def addArtifact (m : Metadata) (a : Artifact) : Metadata := (m.describe a).addVersion a.baseVersion

/-- Adds an artifact to the document of its version, as a local copy that was made at a given
time. -/
def addLocalCopy (m : Metadata) (a : Artifact) (time : String) : Metadata :=
  { m.addArtifact a with
    version := some a.baseVersion
    snapshot := some { m.snapshot.getD {} with localCopy := some true }
    lastUpdated := some time }

open Markup

def snapshotSchema : Schema Snapshot where
  field? key := match String.ofList key with
    | "timestamp" => some (.optional Source.string fun v s => { s with timestamp := v })
    | "buildNumber" => some (.optional Source.word32 fun v s => { s with buildNumber := v })
    | "localCopy" => some (.optional Source.bool fun v s => { s with localCopy := v })
    | _ => none
  required := []

def versionsSchema : Schema (List String) where
  field? key := match String.ofList key with
    | "version" => some (.many Source.string fun v vs => vs ++ [v])
    | _ => none
  required := []

def versioningSchema : Schema Versioning where
  field? key := match String.ofList key with
    | "latest" => some (.optional Source.string fun v m => { m with latest := v })
    | "release" => some (.optional Source.string fun v m => { m with release := v })
    | "snapshot" => some (.optional (Source.record snapshotSchema {} "struct Snapshot")
        fun v m => { m with snapshot := v })
    | "versions" => some (.value (Source.record versionsSchema [] "struct Versions")
        fun v m => { m with versions := v })
    | "lastUpdated" => some (.optional Source.string fun v m => { m with lastUpdated := v })
    | _ => none
  required := []

def schema : Schema Metadata where
  field? key := match String.ofList key with
    | "@modelVersion" => some (.optional Source.string fun v m => { m with modelVersion := v })
    | "groupId" => some (.optional Source.string fun v m => { m with group := v })
    | "artifactId" => some (.optional Source.string fun v m => { m with name := v })
    | "version" => some (.optional Source.string fun v m => { m with version := v })
    | "versioning" => some (.value (Source.record versioningSchema {} "struct Versioning")
        fun v m => { m with toVersioning := v })
    | _ => none
  required := []

/-- Reads a document. -/
def parse (text : String) : Except Fault Metadata :=
  let document := Document.ofText text.toList
  schema.readRoot {} "struct Metadata" document.fault document.nodes

/-- An element for a value, if there is one. -/
def leaf? (key : String) (value : Option String) : List Written :=
  value.toList.map fun v => .leaf key.toList v.toList

def snapshotElement (s : Snapshot) : Written :=
  .branch "snapshot".toList [] <|
    leaf? "timestamp" s.timestamp ++
    leaf? "buildNumber" (s.buildNumber.map fun n => toString n.toNat) ++
    leaf? "localCopy" (s.localCopy.map fun b => if b then "true" else "false")

def versioningElement (v : Versioning) : Written :=
  .branch "versioning".toList [] <|
    leaf? "latest" v.latest ++
    leaf? "release" v.release ++
    (v.snapshot.map snapshotElement).toList ++
    (if v.versions = [] then [] else
      [.branch "versions".toList [] (v.versions.map fun v => .leaf "version".toList v.toList)]) ++
    leaf? "lastUpdated" v.lastUpdated

/-- The root element of a document. -/
def element (m : Metadata) : Written :=
  .branch "metadata".toList
    (m.modelVersion.toList.map fun v => ("modelVersion".toList, v.toList)) <|
    leaf? "groupId" m.group ++
    leaf? "artifactId" m.name ++
    leaf? "version" m.version ++
    [versioningElement m.toVersioning]

/-- The first line of a document. -/
def declaration : List Char := "<?xml version=\"1.0\" encoding=\"UTF-8\"?>\n".toList

/-- The text of a document. -/
def render (m : Metadata) : String := String.ofList (declaration ++ m.element.render 0 ++ ['\n'])

example :
    (parse "<metadata><groupId>a&amp;b</groupId></metadata>").toOption =
      some { group := some "a&b" } := by
  decide +kernel

end Metadata
end FeatureDepot
