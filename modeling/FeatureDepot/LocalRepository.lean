import FeatureDepot.FileSystem.Access
import FeatureDepot.Layout

/-! The local repository, in which artifacts are looked up. Nothing is ever written to it. -/
namespace FeatureDepot

/-- An artifact, and the file that holds it, if it was found. -/
structure ResolvedArtifact where
  artifact : Artifact
  file : Option Path
  deriving DecidableEq, Repr

/-- Looks up an artifact below the root of a repository. One that is not there is no error. -/
def FileSystem.resolve (fs : FileSystem) (root : Path) (a : Artifact) :
    Except IoError ResolvedArtifact := do
  let file := Layout.nested.filePath root a
  return ⟨a, if ← fs.exists? file then some file else none⟩

end FeatureDepot
