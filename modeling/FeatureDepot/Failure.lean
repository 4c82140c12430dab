import FeatureDepot.Artifact
import FeatureDepot.FileSystem.Access
import FeatureDepot.Json.Fault
import FeatureDepot.Markup.Fault
import FeatureDepot.Selection

/-! Why an item or a whole run fails: a cause, and around it what was being done. -/
namespace FeatureDepot

/-- What was being done when something failed. -/
inductive Activity
  | loadingDescriptor (location : String)
  | readingSettings (file : Path)
  | parsingSettings (file : Path)
  | copying (source destination : Path)
  | reading (file : Path)
  | writing (file : Path)
  | writingChecksums (file : Path)
  deriving DecidableEq, Repr

def Activity.text : Activity → String
  | loadingDescriptor location => "loading features descriptor " ++ location
  | readingSettings file => "reading configuration " ++ file.text
  | parsingSettings file => "parsing configuration " ++ file.text
  | copying source destination => "copying " ++ source.text ++ " to " ++ destination.text
  | reading file => "reading " ++ file.text
  | writing file => "writing " ++ file.text
  | writingChecksums file => "writing checksums for " ++ file.text

inductive Cause
  | io (error : IoError)
  | markup (fault : Markup.Fault)
  | json (fault : Json.Fault)
  | selection (fault : SelectionFault)
  | missingContent (artifact : Artifact)
  | descriptorNotPresent (artifact : Artifact)
  | descriptorNotMvn
  | notMvn (location : String)
  | broken (message : String)
  deriving DecidableEq, Repr

def Cause.message : Cause → String
  | io error => error.message
  | markup fault => fault.message
  | json fault => fault.message
  | selection fault => fault.message
  | missingContent artifact =>
    "artifact " ++ artifact.display ++ " is not present in the local repository"
  | descriptorNotPresent artifact => artifact.display ++ " is not present in the local repository"
  | descriptorNotMvn => "not a valid mvn URL"
  | notMvn location => "not a valid mvn URL: " ++ location
  | broken message => message

/-- A cause with the activities around it, the outermost first. A temporary file that could not be
removed is noted with the error of that attempt. -/
structure Failure where
  activities : List Activity := []
  cause : Cause
  abandoned : Option (Path × IoError) := none
  deriving DecidableEq, Repr

namespace Failure

/-- The text of a failure: the activities and the cause. -/
def message (f : Failure) : String :=
  ": ".intercalate (f.activities.map Activity.text ++ [f.cause.message])

/-- Puts an activity around a failure. -/
def around (a : Activity) (f : Failure) : Failure := { f with activities := a :: f.activities }

end Failure
end FeatureDepot
