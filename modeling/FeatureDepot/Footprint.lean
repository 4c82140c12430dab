import FeatureDepot.Run

/-! Which paths a run looks at or writes to. A part of a large file system that has what is at these
paths does for the whole of it. -/
namespace FeatureDepot

/-- The paths that adding an artifact to a depot touches, its source apart. -/
def Depot.footprint (d : Depot) (a : Artifact) : List Path :=
  let file := d.destination a
  if d.generateMetadata then
    [file, Layout.versionMetadata file, Layout.artifactMetadata file].flatMap fun f =>
      f :: ChecksumKind.all.map (ChecksumFile.path f)
  else [file]

namespace Settings

/-- The file of the local repository in which an mvn URL is looked up. -/
def lookup? (s : Settings) (location : String) : Option Path :=
  (Location.artifact? location).map (Layout.nested.filePath s.localRepository)

/-- The paths that a task touches. -/
def footprint (s : Settings) : Task → List Path
  | .descriptor source => source.file.toList ++ s.depot.footprint source.artifact
  | .location location =>
    match Location.artifact? location with
    | some a => Layout.nested.filePath s.localRepository a :: s.depot.footprint a
    | none => []
  | .file copy => [copy.source, s.depot.root.join copy.target]

/-- The file that a run failed to load a descriptor from. -/
def wanted? (s : Settings) (f : Failure) : Option Path :=
  match f.activities with
  | .loadingDescriptor location :: _ => s.lookup? location
  | _ => none

end Settings

/-- The places that a path leads along. -/
def FileSystem.along (fs : FileSystem) (p : Path) : List Place :=
  let step (places : List Place) (s : Path.Segment) : List Place :=
    let place := places.headD []
    if Path.isIdle s then places
    else (if s = ['.', '.'] then place.dropLast else place ++ [s]) :: places
  let start := fs.base p
  (p.segments.foldl step ((List.range (start.length + 1)).map start.take).reverse).reverse

end FeatureDepot
