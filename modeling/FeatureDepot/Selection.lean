import FeatureDepot.Closure
import FeatureDepot.Descriptor
import FeatureDepot.Text.Cut

/-! Selecting features: the requested ones and what they need, each once, in the order in which they
are reached first. A feature is known by its position among the features of all descriptors. -/
namespace FeatureDepot

/-- Why a selection fails. -/
inductive SelectionFault
  | notFound (name : String)
  | dependencyNotFound (feature dependency : String)
  deriving DecidableEq, Repr

def SelectionFault.message : SelectionFault → String
  | notFound name => "feature " ++ name ++ " not found in any descriptor"
  | dependencyNotFound feature dependency =>
    "feature " ++ feature ++ " depends on " ++ dependency ++
      ", which was not found in any descriptor"

/-- A version that starts with a bracket is a range. Ranges are not evaluated: any version will
do. -/
def isRange (version : String) : Bool :=
  match version.toList with
  | c :: _ => c == '[' || c == '('
  | [] => false

/-- Whether a reference by name and perhaps a version means a feature. -/
def FeatureReference.matches (r : FeatureReference) (f : Feature) : Bool :=
  f.name == r.name && (r.version.filter (!isRange ·)).all (f.version == some ·)

namespace Selection

/-- The reference that a requested text stands for: a name, and behind the first slash a version. -/
def requested (text : String) : FeatureReference :=
  match Text.cutFirst? '/' text.toList with
  | some (name, version) => ⟨some (String.ofList version), String.ofList name⟩
  | none => ⟨none, text⟩

variable (all : List Feature)

/-- The position of the first feature that a reference means. -/
def find? (r : FeatureReference) : Option (Fin all.length) := all.findFinIdx? r.matches

/-- The position of a requested feature. -/
def start (r : FeatureReference) : Except SelectionFault (Fin all.length) :=
  (find? all r).elim (.error (.notFound r.name)) .ok

/-- The position of a feature that another one needs. -/
def dependency (f : Feature) (r : FeatureReference) : Except SelectionFault (Fin all.length) :=
  (find? all r).elim (.error (.dependencyNotFound f.id r.name)) .ok

/-- The positions of the features that a feature needs. -/
def next (i : Fin all.length) : Except SelectionFault (Unit × List (Fin all.length)) :=
  return ((), ← all[i].dependencies.mapM (dependency all all[i]))

theorem finite_next : Closure.Finite (next all) :=
  ⟨List.finRange all.length, fun _ _ _ _ c _ => List.mem_finRange c⟩

/-- The positions of the requested features, or all if none is requested. -/
def first (names : List String) : Except SelectionFault (List (Fin all.length)) :=
  if names.isEmpty then .ok (List.finRange all.length)
    else names.mapM fun n => start all (requested n)

/-- The positions of the selected features: the first ones, and those that they need. -/
def positions (names : List String) : Except SelectionFault (List (Fin all.length)) :=
  return (← Closure.reach (next all) (finite_next all) (← first all names)).map Prod.fst

/-- The first slash ends the name. -/
example : requested "a/1/2" = ⟨some "1/2", "a"⟩ := by decide +kernel

end Selection

/-- The features that descriptors offer, in order. -/
def offered (descriptors : List Descriptor) : List Feature :=
  descriptors.flatMap Descriptor.features

/-- Selects features of descriptors. -/
def selectFeatures (descriptors : List Descriptor) (names : List String) :
    Except SelectionFault (List Feature) :=
  let all := offered descriptors
  return (← Selection.positions all names).map (all[·])

end FeatureDepot
