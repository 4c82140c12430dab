import FeatureDepot.Version

/-! Artifacts: what a repository files under group, name, version, classifier and extension. -/
namespace FeatureDepot

/-- The extension of an artifact that names none. -/
def defaultExtension : String := "jar"

/-- The coordinates of one file of a repository. A classifier, if there is one, is not empty. -/
structure Artifact where
  group : String
  name : String
  version : Version
  classifier : Option String := none
  extension : String := defaultExtension
  deriving DecidableEq, Repr

namespace Artifact

/-- A text that counts only if it is not empty. -/
def present? (text : String) : Option String := if text.isEmpty then none else some text

/-- The artifact of a group, a name and the text of a version, with the default extension. -/
def ofVersionText (group name version : String) : Artifact :=
  ⟨group, name, .parse version, none, defaultExtension⟩

def withExtension (a : Artifact) (extension : String) : Artifact := { a with extension }

/-- An empty classifier is none at all. -/
def withClassifier (a : Artifact) (classifier : String) : Artifact :=
  { a with classifier := present? classifier }

def baseVersion (a : Artifact) : String := a.version.baseVersion

/-- The form that reports show: group, name, extension, classifier if any, and version. -/
def display (a : Artifact) : String :=
  let classifier := match a.classifier with
    | some c => ":" ++ c
    | none => ""
  a.group ++ ":" ++ a.name ++ ":" ++ a.extension ++ classifier ++ ":" ++ a.version.text

end Artifact
end FeatureDepot
