/-! Paths as text. A path keeps the text that it was written as, with doubled slashes, dots and all,
and shows it again; what is its parent and its file name is read off its segments. -/
namespace FeatureDepot

/-- A path, relative to the working directory unless it starts with a slash. -/
structure Path where
  text : String
  deriving DecidableEq, Repr

namespace Path

/-- A part of a path between two slashes. -/
abbrev Segment := List Char

def segments (p : Path) : List Segment := p.text.toList.splitOn '/'

def ofSegments (segments : List Segment) : Path := ⟨String.ofList (['/'].intercalate segments)⟩

@[simp] theorem ofSegments_segments (p : Path) : ofSegments p.segments = p := by
  simp [ofSegments, segments, List.intercalate_splitOn]

def isAbsolute (p : Path) : Bool := p.text.toList.head? == some '/'

/-- An empty segment or a dot leads nowhere. -/
def isIdle (s : Segment) : Bool := s == [] || s == ['.']

/-- The segments up to the last one that leads somewhere. A leading dot counts as a place. -/
def trim (segments : List Segment) : List Segment :=
  match (segments.reverse.dropWhile isIdle).reverse with
  | [] => if segments.head? = some ['.'] then [['.']] else []
  | s :: rest => s :: rest

/-- The path of the directory that holds a path, as its text shows it: no place is looked up, so two
dots are a name like any other. The root and the empty path have none. -/
def parent? (p : Path) : Option Path :=
  match trim p.segments with
  | [] => none
  | s :: rest =>
    match trim (s :: rest).dropLast with
    | [] => some ⟨if p.isAbsolute then "/" else ""⟩
    | front => some (ofSegments front)

/-- The last segment, unless it is made of dots that stand for a directory. -/
def fileName? (p : Path) : Option String :=
  match (trim p.segments).getLast? with
  | some s => if s = ['.'] ∨ s = ['.', '.'] then none else some (String.ofList s)
  | none => none

/-- A path below another. An absolute path replaces it, and a slash is put between the two where
there is none. -/
def push (p : Path) (below : String) : Path :=
  if below.toList.head? = some '/' then ⟨below⟩
  else if p.text.toList.getLast?.all (· == '/') then ⟨p.text ++ below⟩
  else ⟨p.text ++ "/" ++ below⟩

def join (p below : Path) : Path := p.push below.text

/-- The path with another file name; a path without one gets the name below it. -/
def withFileName (p : Path) (name : String) : Path :=
  match p.fileName?, p.parent? with
  | some _, some directory => directory.push name
  | _, _ => p.push name

/-- A path with more text at its end. -/
def extend (p : Path) (ending : String) : Path := ⟨p.text ++ ending⟩

/-- The ends of a path's segments, longest first, at which its text names a directory. -/
def prefixes : List Segment → List Path
  | [] => []
  | [s] => if s = [] then [] else [ofSegments [s]]
  | s :: below =>
    if isIdle s then prefixes below else ofSegments (s :: below).reverse :: prefixes below

/-- A path and the directories above it that its text names, from the inside out, without the root
and the working directory. -/
def lineage (p : Path) : List Path :=
  match (trim p.segments).reverse with
  | [] => []
  | _ :: above => p :: prefixes above

example : (Path.mk "./a//b/.").parent? = some ⟨"./a"⟩ := by decide +kernel

example : (Path.mk "/a").parent? = some ⟨"/"⟩ ∧ (Path.mk "//").parent? = none := by decide +kernel

example : (Path.mk "a/./b/c").lineage = [⟨"a/./b/c"⟩, ⟨"a/./b"⟩, ⟨"a"⟩] := by decide +kernel

end Path
end FeatureDepot
