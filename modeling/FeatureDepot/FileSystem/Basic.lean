import FeatureDepot.Bytes
import FeatureDepot.Path
import FeatureDepot.Text.Character

/-! A file system as a value: which places hold a file or a directory. Paths lead to places from
directory to directory; the dots are followed where they stand, so a path that its text shows to be
short may still lead nowhere. -/
namespace FeatureDepot

/-- The names of the directories above a place from the root down, and its own name. -/
abbrev Place := List Path.Segment

/-- What a place holds. -/
inductive Entry
  | file (content : Bytes)
  | directory
  deriving DecidableEq, Repr

/-- Why an operation on files fails. -/
inductive IoError
  | notFound
  | alreadyExists
  | notADirectory
  | isADirectory
  | nameTooLong
  | busy
  | notText
  | nulInName
  deriving DecidableEq, Repr

def IoError.message : IoError → String
  | notFound => "No such file or directory (os error 2)"
  | alreadyExists => "File exists (os error 17)"
  | notADirectory => "Not a directory (os error 20)"
  | isADirectory => "Is a directory (os error 21)"
  | nameTooLong => "File name too long (os error 36)"
  | busy => "Device or resource busy (os error 16)"
  | notText => "stream did not contain valid UTF-8"
  | nulInName => "file name contained an unexpected NUL byte"

/-- The places that hold something, and the directory at which relative paths start. The root is
always there. -/
structure FileSystem where
  entries : List (Place × Entry)
  workingDirectory : Place
  deriving DecidableEq, Repr

namespace FileSystem

/-- What a place holds, if there is something. -/
def get? (fs : FileSystem) (place : Place) : Option Entry :=
  if place = [] then some .directory else fs.entries.lookup place

theorem mem_entries_of_get? {fs : FileSystem} {place : Place} {entry : Entry}
    (h : fs.get? place = some entry) (hp : place ≠ []) : (place, entry) ∈ fs.entries := by
  rw [get?, if_neg hp] at h
  obtain ⟨front, rest, hentries, -⟩ := List.lookup_eq_some_iff.mp h
  rw [hentries]
  exact List.mem_append_right _ List.mem_cons_self

theorem mem_entries_of_get?_file {fs : FileSystem} {place : Place} {content : Bytes}
    (h : fs.get? place = some (.file content)) : (place, .file content) ∈ fs.entries := by
  refine mem_entries_of_get? h ?_
  rintro rfl
  simp [get?] at h

/-- Puts something at a place. -/
def put (fs : FileSystem) (place : Place) (entry : Entry) : FileSystem :=
  { fs with entries := (place, entry) :: fs.entries.filter (·.1 != place) }

/-- Takes away what a place holds. -/
def take (fs : FileSystem) (place : Place) : FileSystem :=
  { fs with entries := fs.entries.filter (·.1 != place) }

theorem lookup_filter_ne {entries : List (Place × Entry)} {place other : Place}
    (h : other ≠ place) :
    (entries.filter (·.1 != place)).lookup other = entries.lookup other := by
  induction entries with
  | nil => rfl
  | cons e entries ih =>
    obtain ⟨p, entry⟩ := e
    by_cases hp : p = place
    · have hne : (other == place) = false := by simpa using h
      simp [hp, ih, List.lookup_cons, hne]
    · simp [hp, ih, List.lookup_cons]

theorem lookup_filter_self {entries : List (Place × Entry)} {place : Place} :
    (entries.filter (·.1 != place)).lookup place = none := by
  induction entries with
  | nil => rfl
  | cons e entries ih =>
    obtain ⟨p, entry⟩ := e
    by_cases hp : p = place
    · simp [hp, ih]
    · have : (place == p) = false := by simpa using Ne.symm hp
      simp [hp, ih, List.lookup_cons, this]

theorem get?_put (fs : FileSystem) {place : Place} (entry : Entry) (other : Place)
    (hp : place ≠ []) :
    (fs.put place entry).get? other = if other = place then some entry else fs.get? other := by
  unfold get? put
  by_cases h : other = place
  · simp [h, hp]
  · have : (other == place) = false := by simpa using h
    simp [h, List.lookup_cons, this, lookup_filter_ne h]

theorem get?_take (fs : FileSystem) {place : Place} (other : Place) (hp : place ≠ []) :
    (fs.take place).get? other = if other = place then none else fs.get? other := by
  unfold get? take
  by_cases h : other = place
  · simp [h, hp, lookup_filter_self]
  · simp [h, lookup_filter_ne h]

@[simp] theorem workingDirectory_put (fs : FileSystem) (place : Place) (entry : Entry) :
    (fs.put place entry).workingDirectory = fs.workingDirectory := rfl

@[simp] theorem workingDirectory_take (fs : FileSystem) (place : Place) :
    (fs.take place).workingDirectory = fs.workingDirectory := rfl

/-- The longest name that a directory can hold. -/
def maxName : Nat := 255

/-- The longest path, with a byte behind it, that can be followed. -/
def maxPath : Nat := 4096

/-- A path that can be followed holds no NUL, is not empty, and is not too long. -/
def checkPath (p : Path) : Except IoError Unit :=
  if p.text.toList.contains '\x00' then .error .nulInName
  else if p.text.isEmpty then .error .notFound
  else if maxPath ≤ Text.size p.text.toList then .error .nameTooLong
  else .ok ()

/-- The place at which a path starts. -/
def base (fs : FileSystem) (p : Path) : Place := if p.isAbsolute then [] else fs.workingDirectory

/-- The place of a name in a directory. -/
def child (fs : FileSystem) (directory : Place) (name : Path.Segment) : Except IoError Place :=
  if maxName < Text.size name then .error .nameTooLong
  else if (fs.get? (directory ++ [name])).isSome then .ok (directory ++ [name])
  else .error .notFound

/-- Follows segments from a place. -/
def walk (fs : FileSystem) (place : Place) : List Path.Segment → Except IoError Place
  | [] => .ok place
  | s :: segments =>
    if fs.get? place ≠ some .directory then .error .notADirectory
    else if Path.isIdle s then fs.walk place segments
    else if s = ['.', '.'] then fs.walk place.dropLast segments
    else do fs.walk (← fs.child place s) segments

/-- The place that a path leads to. -/
def locate (fs : FileSystem) (p : Path) : Except IoError Place := do
  checkPath p
  fs.walk (fs.base p) p.segments

/-- A place at which something can be made: a directory, and a name in it unless the path ends in
dots or at the root. -/
structure Target where
  directory : Place
  name : Option Path.Segment
  slashed : Bool
  deriving DecidableEq, Repr

/-- The place that a path names, whether there is something or not. -/
def target (fs : FileSystem) (p : Path) : Except IoError Target := do
  checkPath p
  let segments := (p.segments.reverse.dropWhile (· == [])).reverse
  let directory ← fs.walk (fs.base p) segments.dropLast
  if fs.get? directory ≠ some .directory then .error .notADirectory
  else
    .ok {
      directory
      name := segments.getLast?.filter fun s => s != ['.'] && s != ['.', '.']
      slashed := p.segments.getLast? == some [] }

end FileSystem
end FeatureDepot
