import FeatureDepot.Disk
import FeatureDepot.Metadata

/-! Metadata documents in files. -/
namespace FeatureDepot.Metadata

/-- The document in a file, or none if there is no file. -/
def load (fs : FileSystem) (file : Path) : Except Cause (Option Metadata) :=
  match fs.exists? file with
  | .error e => .error (.io e)
  | .ok false => .ok none
  | .ok true =>
    match fs.readText file with
    | .error e => .error (.io e)
    | .ok text =>
      match parse text with
      | .ok m => .ok (some m)
      | .error fault => .error (.markup fault)

/-- Reads the document in a file, if there is one. -/
def read (file : Path) : Disk (Option Metadata) := do
  match load (← get) file with
  | .ok m => return m
  | .error cause => Disk.fail cause

/-- Writes a document to a file. -/
def write (host : Host) (file : Path) (m : Metadata) : Disk Unit := do
  Disk.makeRoom file
  Disk.replace host file [.ok (Bytes.encode m.render)]

/-- Changes the document in a file, which is empty if there is none. -/
def update (host : Host) (file : Path) (change : Metadata → Metadata) : Disk Unit := do
  let m ← Disk.during (.reading file) (read file)
  Disk.during (.writing file) (write host file (change (m.getD {})))

end FeatureDepot.Metadata
