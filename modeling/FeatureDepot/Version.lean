import FeatureDepot.Text.Cut
import FeatureDepot.Text.Digit

/-! Artifact versions. A snapshot that was deployed carries the moment of its deployment and a build
number in place of the word SNAPSHOT; every other version is taken literally. -/
namespace FeatureDepot

/-- A literal version, or a deployed snapshot with its base version, timestamp and build number. -/
inductive Version
  | release (text : String)
  | snapshot (base timestamp : String) (build : Option UInt32)
  deriving DecidableEq, Repr

namespace Version

/-- The ending of a base version that stands for an unreleased state. -/
def snapshotSuffix : List Char := "-SNAPSHOT".toList

/-- Eight digits, a dot and six digits: the day and the time of a deployment. -/
def isTimestamp (cs : List Char) : Bool :=
  match cs.drop 8 with
  | '.' :: time =>
    (cs.take 8).all Text.isDecimalDigit && time.length == 6 && time.all Text.isDecimalDigit
  | _ => false

/-- The base, timestamp and build number of a deployed snapshot, written with a dash between them.
The build number holds no dash and the timestamp has fifteen characters, so there is only one way
to cut. -/
def deployed? (cs : List Char) : Option (List Char × List Char × UInt32) := do
  let (front, number) ← Text.cutLast? '-' cs
  let build ← Text.word? number
  let base := front.take (front.length - 16)
  match front.drop (front.length - 16) with
  | '-' :: stamp =>
    if isTimestamp stamp && !base.contains '\n' then some (base, stamp, build) else none
  | _ => none

/-- The version that a text in a coordinate stands for. -/
def parse (text : String) : Version :=
  match deployed? text.toList with
  | some (base, stamp, build) =>
    .snapshot (String.ofList (base ++ snapshotSuffix)) (String.ofList stamp) (some build)
  | none => .release text

/-- The version that names directories and metadata: a snapshot without its timestamp. -/
def baseVersion : Version → String
  | release text => text
  | snapshot base .. => base

def isSnapshot : Version → Bool
  | release text => snapshotSuffix.isSuffixOf text.toList
  | snapshot .. => true

/-- The part of a base version before the ending that marks it as a snapshot. -/
def stem (base : String) : String :=
  match snapshotSuffix.isSuffixOf? base.toList with
  | some front => String.ofList front
  | none => base

/-- The text of a version in a coordinate. -/
def text : Version → String
  | release text => text
  | snapshot base timestamp (some build) =>
    stem base ++ "-" ++ timestamp ++ "-" ++ toString build.toNat
  | snapshot base timestamp none => stem base ++ "-" ++ timestamp

example : (parse "1.0-20240101.123456-3").baseVersion = "1.0-SNAPSHOT" := by decide +kernel

example : (parse "1.0-20240101.123456-03").text = "1.0-20240101.123456-3" := by decide +kernel

example : parse "1.0-20240101-3" = .release "1.0-20240101-3" := by decide +kernel

end Version
end FeatureDepot
