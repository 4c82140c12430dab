import FeatureDepot.ChecksumFile
import FeatureDepot.LocalRepository
import FeatureDepot.Metadata.Store
import FeatureDepot.Report

/-! The depot: the directory that artifacts are copied to, with metadata documents and checksums
beside them if they are wanted. -/
namespace FeatureDepot

structure Depot where
  root : Path
  layout : Layout
  generateMetadata : Bool
  deriving DecidableEq, Repr

namespace Depot

/-- The path of an artifact's file in the depot. -/
def destination (d : Depot) (a : Artifact) : Path := d.layout.filePath d.root a

/-- Adds an artifact to its metadata documents, and writes the checksums of its file and of both. -/
def describe (host : Host) (a : Artifact) (file : Path) : Disk Unit := do
  let version := Layout.versionMetadata file
  let all := Layout.artifactMetadata file
  Metadata.update host version (·.addLocalCopy a host.now)
  Metadata.update host all (·.addArtifact a)
  for f in [file, version, all] do
    let _ ← Disk.during (.writingChecksums f) (ChecksumFile.writeAll host f)

/-- Copies an artifact into the depot, and returns where it is. -/
def materialize (host : Host) (d : Depot) (r : ResolvedArtifact) : Disk Path := do
  let destination := d.destination r.artifact
  match r.file with
  | none => Disk.fail (.missingContent r.artifact)
  | some source =>
    Disk.during (.copying source destination) (Disk.copy host source destination)
    if d.generateMetadata then describe host r.artifact destination
    return destination

/-- Copies a file that is no artifact to a path below the root of the depot. -/
def copyFile (host : Host) (d : Depot) (source target : Path) : Disk Path := do
  let destination := d.root.join target
  Disk.during (.copying source destination) (Disk.copy host source destination)
  return destination

/-- Copies an artifact, and reports on it under a label. -/
def add (host : Host) (d : Depot) (label : String) (r : ResolvedArtifact) :
    StateM FileSystem ReportItem :=
  ReportItem.ofAction label (.artifact r.artifact) (d.materialize host r)

/-- Copies artifacts one after the other. The failure of one does not keep the others out. -/
def materializeAll (host : Host) (d : Depot) (rs : List ResolvedArtifact) :
    StateM FileSystem (List ReportItem) :=
  rs.mapM fun r => d.add host r.artifact.display r

end Depot
end FeatureDepot
