import FeatureDepot.Artifact

/-! Where a descriptor says that a bundle comes from. Two notations name an artifact: an mvn URL
with slashes, and coordinates with colons. Each has one grammar; a text outside of it is no error,
but a location that stays as it is. -/
namespace FeatureDepot

/-- The scheme in front of an mvn URL that says how the bundle is treated after it was fetched. -/
inductive Wrapper
  | none
  | wrap
  | blueprint
  deriving DecidableEq, Repr

def Wrapper.text : Wrapper → List Char
  | none => []
  | wrap => "wrap:".toList
  | blueprint => "blueprint:".toList

/-- The type of an artifact, and behind it a classifier. -/
structure Packaging where
  type : List Char
  classifier : Option (List Char)
  deriving DecidableEq, Repr

/-- The parts of an mvn URL. -/
structure MvnUrl where
  wrapper : Wrapper
  group : List Char
  name : List Char
  version : List Char
  packaging : Option Packaging
  instructions : Option (List Char)
  deriving DecidableEq, Repr

namespace MvnUrl

/-- A group or an artifact name: anything but a slash or a space, and not nothing. -/
def isName (cs : List Char) : Bool := !cs.isEmpty && !cs.contains '/' && !cs.contains ' '

/-- A version: anything without a slash, a dollar sign or a space. -/
def isVersion (cs : List Char) : Bool := !cs.contains '/' && !cs.contains '$' && !cs.contains ' '

/-- A type or a classifier is written like a version, and is not empty. -/
def isQualifier (cs : List Char) : Bool := !cs.isEmpty && isVersion cs

/-- Instructions for the wrapper: one line of text. -/
def isInstructions (cs : List Char) : Bool := !cs.isEmpty && !cs.contains '\n'

/-- The parts that a URL can be written from. -/
def WellFormed (u : MvnUrl) : Prop :=
  isName u.group ∧ isName u.name ∧ isVersion u.version ∧
  (∀ p ∈ u.packaging, isQualifier p.type ∧ ∀ c ∈ p.classifier, isQualifier c) ∧
  ∀ q ∈ u.instructions, isInstructions q

instance (u : MvnUrl) : Decidable u.WellFormed := by unfold WellFormed; infer_instance

/-- The text of a URL. -/
def render (u : MvnUrl) : List Char :=
  u.wrapper.text ++ "mvn:".toList ++ u.group ++ '/' :: u.name ++ '/' :: u.version ++
  (match u.packaging with
    | some p => '/' :: p.type ++ (match p.classifier with | some c => '/' :: c | none => [])
    | none => []) ++
  (match u.instructions with | some q => '/' :: '$' :: q | none => [])

/-- The wrapper of a URL, and the text behind its scheme. -/
def schemed? (cs : List Char) : Option (Wrapper × List Char) :=
  match "mvn:".toList.isPrefixOf? cs with
  | some body => some (.none, body)
  | none =>
    match "wrap:mvn:".toList.isPrefixOf? cs with
    | some body => some (.wrap, body)
    | none => ("blueprint:mvn:".toList.isPrefixOf? cs).map (.blueprint, ·)

/-- The instructions that the last segments of a URL hold: none, or all of the text behind the
dollar sign of the first segment. -/
def instructions? : List (List Char) → Option (Option (List Char))
  | [] => some none
  | ('$' :: cs) :: segments =>
    let q := ['/'].intercalate (cs :: segments)
    if isInstructions q then some (some q) else none
  | _ => none

/-- The packaging and instructions that the segments behind a version hold. A type never starts with
a dollar sign, so what the first segment is shows at its first character. -/
def qualifiers? (segments : List (List Char)) : Option (Option Packaging × Option (List Char)) :=
  match instructions? segments with
  | some q => some (none, q)
  | none =>
    match segments with
    | type :: segments =>
      if isQualifier type then
        match instructions? segments with
        | some q => some (some ⟨type, none⟩, q)
        | none =>
          match segments with
          | classifier :: segments =>
            if isQualifier classifier then
              (instructions? segments).map (some ⟨type, some classifier⟩, ·)
            else none
          | [] => none
      else none
    | [] => none

/-- The parts of a URL, if the text is one. -/
def parse? (cs : List Char) : Option MvnUrl := do
  let (wrapper, body) ← schemed? cs
  match body.splitOn '/' with
  | group :: name :: version :: segments =>
    if isName group && isName name && isVersion version then
      let (packaging, instructions) ← qualifiers? segments
      some ⟨wrapper, group, name, version, packaging, instructions⟩
    else none
  | _ => none

/-- The classifier of a URL, which stands behind its type. -/
def classifier? (u : MvnUrl) : Option (List Char) := u.packaging.bind Packaging.classifier

/-- The artifact that a URL names, unless its version is empty. -/
def artifact? (u : MvnUrl) : Option Artifact :=
  if u.version.isEmpty then none else
    some {
      group := String.ofList u.group
      name := String.ofList u.name
      version := .parse (String.ofList u.version)
      classifier := u.classifier?.map String.ofList
      extension := (u.packaging.map fun p => String.ofList p.type).getD defaultExtension }

end MvnUrl

/-- Coordinates with colons: group, name, extension and classifier if given, and version. The
extension can be empty, which is not the same text as none. -/
structure Coordinates where
  group : List Char
  name : List Char
  qualifiers : Option (List Char × Option (List Char))
  version : List Char
  deriving DecidableEq, Repr

namespace Coordinates

/-- A part of coordinates holds neither a colon nor a space. -/
def isPart (cs : List Char) : Bool := !cs.contains ':' && !cs.contains ' '

/-- A part that must be given. -/
def isFilled (cs : List Char) : Bool := !cs.isEmpty && isPart cs

/-- The parts that coordinates can be written from. -/
def WellFormed (k : Coordinates) : Prop :=
  isFilled k.group ∧ isFilled k.name ∧ isFilled k.version ∧
  ∀ q ∈ k.qualifiers, isPart q.1 ∧ ∀ c ∈ q.2, isFilled c

instance (k : Coordinates) : Decidable k.WellFormed := by unfold WellFormed; infer_instance

/-- The text of coordinates. -/
def render (k : Coordinates) : List Char :=
  k.group ++ ':' :: k.name ++ ':' ::
  (match k.qualifiers with
    | some (extension, some classifier) => extension ++ ':' :: classifier ++ [':']
    | some (extension, none) => extension ++ [':']
    | none => []) ++ k.version

/-- The parts of coordinates, if the text is such: three to five parts, of which only an extension
can be empty. -/
def parse? (cs : List Char) : Option Coordinates :=
  let checked (k : Coordinates) : Option Coordinates := if k.WellFormed then some k else none
  match cs.splitOn ':' with
  | [group, name, version] => checked ⟨group, name, none, version⟩
  | [group, name, extension, version] => checked ⟨group, name, some (extension, none), version⟩
  | [group, name, extension, classifier, version] =>
    checked ⟨group, name, some (extension, some classifier), version⟩
  | _ => none

end Coordinates

/-- The extension that stands for an empty one. -/
def orDefault (extension : List Char) : List Char :=
  if extension.isEmpty then defaultExtension.toList else extension

/-- The coordinates that say the same as a URL. The default type goes without saying where no
classifier follows it; wrapper and instructions have no place. -/
def MvnUrl.toCoordinates (u : MvnUrl) : Coordinates :=
  ⟨u.group, u.name,
    match u.packaging with
    | some ⟨type, some classifier⟩ => some (type, some classifier)
    | some ⟨type, none⟩ => if type = defaultExtension.toList then none else some (type, none)
    | none => none,
    u.version⟩

/-- The URL that says the same as coordinates. A given extension is kept, an empty one is the
default one where a classifier follows it and is dropped elsewhere. -/
def Coordinates.toUrl (k : Coordinates) : MvnUrl :=
  ⟨.none, k.group, k.name, k.version,
    match k.qualifiers with
    | some (extension, some classifier) => some ⟨orDefault extension, some classifier⟩
    | some (extension, none) => if extension.isEmpty then none else some ⟨extension, none⟩
    | none => none,
    none⟩

namespace Location

def isMvnUrl (location : String) : Bool := (MvnUrl.parse? location.toList).isSome

/-- An mvn URL as coordinates; another location stays as it is. -/
def toCoordinates (location : String) : String :=
  match MvnUrl.parse? location.toList with
  | some u => String.ofList u.toCoordinates.render
  | none => location

/-- Coordinates as an mvn URL; another location stays as it is. -/
def toMvnUrl (location : String) : String :=
  match Coordinates.parse? location.toList with
  | some k => String.ofList k.toUrl.render
  | none => location

/-- The artifact that an mvn URL with a version names. -/
def artifact? (location : String) : Option Artifact :=
  (MvnUrl.parse? location.toList).bind MvnUrl.artifact?

example : toMvnUrl "g:a:jar:1" = "mvn:g/a/1/jar" := by decide +kernel

/-- The default type is left out, and so are wrapper and instructions. -/
example : toCoordinates "wrap:mvn:g/a/1/jar/$x=y/z" = "g:a:1" := by decide +kernel

/-- Instructions are not empty, and a type does not start with a dollar sign. -/
example : isMvnUrl "mvn:g/a/1/$" = false := by decide +kernel

end Location
end FeatureDepot
