import FeatureDepot.Failure

/-! Actions that change files. What an action did before it failed stays done. A file is replaced as
a whole: its content is written to a temporary file beside it, which is then moved over it, so that
the file never holds a part of the new content. -/
namespace FeatureDepot

/-- What is not part of the file system: the present time, as metadata documents show it, and the
tag that makes the name of a temporary file for a path unlike all others. -/
structure Host where
  now : String
  tag : FileSystem → Path → String

/-- An action on a file system that can fail. -/
abbrev Disk (α : Type) := ExceptT Failure (StateM FileSystem) α

namespace Disk

/-- Fails with a cause. -/
def fail {α : Type} (cause : Cause) : Disk α := throw { cause }

/-- Carries out an operation that only looks at the file system. -/
def look {α : Type} (operation : FileSystem → Except IoError α) : Disk α := do
  match operation (← get) with
  | .ok a => return a
  | .error e => fail (.io e)

/-- Carries out an operation that leaves a file system behind even if it fails. -/
def change {α : Type} (operation : FileSystem → FileSystem × Except IoError α) : Disk α := do
  let (fs, outcome) := operation (← get)
  set fs
  match outcome with
  | .ok a => return a
  | .error e => fail (.io e)

/-- Carries out an action as a part of an activity. -/
def during {α : Type} (a : Activity) (action : Disk α) : Disk α := fun fs =>
  match action fs with
  | (.ok value, fs) => (.ok value, fs)
  | (.error f, fs) => (.error (f.around a), fs)

/-- The content that pieces make up, unless one of them is broken. -/
def content : List (Except Cause Bytes) → Except Cause Bytes
  | [] => .ok []
  | piece :: pieces => return (← piece) ++ (← content pieces)

/-- The path of the temporary file for a path. -/
def temporary (host : Host) (fs : FileSystem) (p : Path) : Path :=
  p.withFileName ("." ++ p.fileName?.getD "" ++ "." ++ host.tag fs p ++ ".writing")

/-- Fails, after an attempt to remove a temporary file. -/
def giveUp (temporary : Path) (cause : Cause) : Disk Unit := do
  match (← get).removeFile temporary with
  | .ok fs =>
    set fs
    fail cause
  | .error e => throw { cause, abandoned := some (temporary, e) }

/-- Replaces the content of a file by pieces. A temporary file that cannot be moved in the end is
left. -/
def replace (host : Host) (p : Path) (pieces : List (Except Cause Bytes)) : Disk Unit := do
  let fs ← get
  let temporary := temporary host fs p
  match fs.createFile temporary with
  | .error e => giveUp temporary (.io e)
  | .ok (fs, place) =>
    match content pieces with
    | .error cause =>
      set fs
      giveUp temporary cause
    | .ok bytes =>
      let fs := fs.put place (.file bytes)
      set fs
      match fs.moveFile place bytes p with
      | .ok fs => set fs
      | .error e => fail (.io e)

/-- Makes the directories for a file. -/
def makeRoom (p : Path) : Disk Unit :=
  match p.parent? with
  | some directory => change (·.makeDirectories directory)
  | none => return

/-- Copies a file, over another one if there is one. The source is opened before anything is
changed. -/
def copy (host : Host) (source destination : Path) : Disk Unit := do
  let pieces ← look (·.openFile source)
  makeRoom destination
  replace host destination (pieces.map (·.mapError .io))

end Disk
end FeatureDepot
