import FeatureDepot.FileSystem.Basic

/-! Operations on files and directories. One that fails changes nothing. -/
namespace FeatureDepot.FileSystem

/-- Whether a path leads to something. -/
def exists? (fs : FileSystem) (p : Path) : Except IoError Bool :=
  match fs.locate p with
  | .ok _ => .ok true
  | .error .notFound => .ok false
  | .error e => .error e

def isDirectory (fs : FileSystem) (p : Path) : Bool :=
  match fs.locate p with
  | .ok place => fs.get? place == some .directory
  | .error _ => false

/-- Opens a path and reads from it. What can be opened is a file or a directory; the latter fails at
the first piece that is read. -/
def openFile (fs : FileSystem) (p : Path) : Except IoError (List (Except IoError Bytes)) := do
  match fs.get? (← fs.locate p) with
  | some (.file content) => .ok [.ok content]
  | _ => .ok [.error .isADirectory]

/-- The content of a file. -/
def read (fs : FileSystem) (p : Path) : Except IoError Bytes := do
  match fs.get? (← fs.locate p) with
  | some (.file content) => .ok content
  | _ => .error .isADirectory

/-- The content of a file as a text. -/
def readText (fs : FileSystem) (p : Path) : Except IoError String := do
  match Bytes.decode? (← fs.read p) with
  | some text => .ok text
  | none => .error .notText

/-- Makes a directory. -/
def makeDirectory (fs : FileSystem) (p : Path) : Except IoError FileSystem := do
  let t ← fs.target p
  match t.name with
  | none => .error .alreadyExists
  | some name =>
    match fs.child t.directory name with
    | .ok _ => .error .alreadyExists
    | .error .notFound => .ok (fs.put (t.directory ++ [name]) .directory)
    | .error e => .error e

/-- Makes a directory and those above it that are missing, from the innermost one out. Returns the
file system also if it fails, since directories may have been made by then. -/
def makeLineage (fs : FileSystem) : List Path → FileSystem × Except IoError Unit
  | [] => (fs, .ok ())
  | p :: above =>
    match fs.makeDirectory p with
    | .ok fs => (fs, .ok ())
    | .error .notFound =>
      match fs.makeLineage above with
      | (fs, .error e) => (fs, .error e)
      | (fs, .ok ()) =>
        match fs.makeDirectory p with
        | .ok fs => (fs, .ok ())
        | .error e => (fs, if fs.isDirectory p then .ok () else .error e)
    | .error e => (fs, if fs.isDirectory p then .ok () else .error e)

/-- Makes a directory and those above it that are missing. -/
def makeDirectories (fs : FileSystem) (p : Path) : FileSystem × Except IoError Unit :=
  fs.makeLineage p.lineage

/-- Makes an empty file where there is nothing, and returns its place. -/
def createFile (fs : FileSystem) (p : Path) : Except IoError (FileSystem × Place) := do
  let t ← fs.target p
  match t.name with
  | none => .error .isADirectory
  | some name =>
    if t.slashed then .error .isADirectory
    else
      match fs.child t.directory name with
      | .ok _ => .error .alreadyExists
      | .error .notFound => .ok (fs.put (t.directory ++ [name]) (.file []), t.directory ++ [name])
      | .error e => .error e

/-- Removes a file. -/
def removeFile (fs : FileSystem) (p : Path) : Except IoError FileSystem := do
  let t ← fs.target p
  match t.name with
  | none => .error .isADirectory
  | some name =>
    let place ← fs.child t.directory name
    match fs.get? place with
    | some (.file _) => if t.slashed then .error .notADirectory else .ok (fs.take place)
    | _ => .error .isADirectory

/-- Moves the file at a place to where a path leads, over a file that is there. -/
def moveFile (fs : FileSystem) (place : Place) (content : Bytes) (p : Path) :
    Except IoError FileSystem := do
  let t ← fs.target p
  match t.name with
  | none => .error .busy
  | some name =>
    let move := .ok ((fs.take place).put (t.directory ++ [name]) (.file content))
    match fs.child t.directory name with
    | .error .notFound => if t.slashed then .error .notADirectory else move
    | .error e => .error e
    | .ok there =>
      if t.slashed then .error .notADirectory
      else if fs.get? there = some .directory then .error .isADirectory
      else move

end FeatureDepot.FileSystem
