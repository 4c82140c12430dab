import FeatureDepot.Footprint
import FeatureDepot.Journal
import Std.Time

/-! The program. It brings the parts of the file system that a run touches into a value, lets the
run change that, and writes back what has changed, item by item. -/
namespace FeatureDepot.Main

/-- What is shown to who asks for help. -/
def usage : String :=
  "Usage: feature-depot [--repository DIR] [--flat-repo-layout] [--generate-maven-metadata] " ++
    "--config FILE"

/-- A place as an absolute path of the machine. -/
def machinePath (place : Place) : String := "/" ++ "/".intercalate (place.map String.ofList)

/-- Brings what a place holds. -/
def bringPlace (fs : FileSystem) (place : Place) : IO FileSystem := do
  let here := (← IO.currentDir) / machinePath place
  if place = [] then return fs
  else if ← here.isDir then return fs.put place .directory
  else if ← here.pathExists then return fs.put place (.file (← IO.FS.readBinFile here).data.toList)
  else return fs

/-- Brings what lies along paths. -/
def bring (fs : FileSystem) (paths : List Path) : IO FileSystem := do
  let mut fs := fs
  for place in (paths.flatMap fs.along).eraseDups do
    fs ← bringPlace fs place
  return fs

/-- An empty file system with the working directory of the machine. -/
def emptySystem : IO FileSystem :=
  return { entries := [], workingDirectory := (Path.mk
    (← IO.currentDir).toString).segments.filter (· != []) }

/-- Writes back what a place holds now. -/
def sendPlace (host : Host) (after : FileSystem) (place : Place) : IO Unit := do
  match after.get? place with
  | some .directory => IO.FS.createDirAll (machinePath place)
  | some (.file content) =>
    let temporary := Disk.temporary host after ⟨machinePath place⟩
    IO.FS.writeBinFile temporary.text (ByteArray.mk content.toArray)
    IO.FS.rename temporary.text (machinePath place)
  | none => IO.FS.removeFile (machinePath place)

/-- Writes back what has changed. -/
def send (host : Host) (before after : FileSystem) : IO Unit := do
  let places := ((after.entries ++ before.entries).map Prod.fst).eraseDups
  for place in places.mergeSort fun p q => p.length ≤ q.length do
    if before.get? place ≠ after.get? place then sendPlace host after place

def print (line : Line) : IO Unit := IO.println (line.level.text ++ " " ++ line.message)

/-- The time of the machine, and a random tag for its temporary files. -/
def machine : IO Host := do
  let time ← Std.Time.Timestamp.now
  let bytes ← IO.getRandomBytes 16
  let hex := (Digest.hex bytes.data.toList).toList
  let tag := "-".intercalate ([(0, 8), (8, 4), (12, 4), (16, 4), (20, 12)].map fun (start, count) =>
    String.ofList ((hex.drop start).take count))
  return { now := (Std.Time.DateTime.ofTimestamp time
    .UTC).format "uuuuMMddHHmmss", tag := fun _ _ => tag }

/-- Brings descriptors as long as one that was not yet brought is wanted. -/
partial def planWith (s : Settings) (fs : FileSystem) (brought : List Path) : IO
  (Except Failure (List Task)) := do
  match s.plan fs with
  | .ok tasks => return .ok tasks
  | .error f =>
    match s.wanted? f with
    | some file =>
      if file ∈ brought then return .error f
      else planWith s (← bring fs [file]) (file :: brought)
    | none => return .error f

/-- Carries out a run, and tells about it as it goes. -/
def runWith (host : Host) (s : Settings) : IO UInt32 := do
  print (Journal.opening s)
  let fs ← emptySystem
  match ← planWith s fs [] with
  | .error f =>
    print (Journal.ofFailure f)
    return 1
  | .ok tasks =>
    let mut report := []
    for task in tasks do
      let before ← bring fs (s.footprint task)
      let (item, after) := (s.perform host task).run before
      send host before after
      (Journal.ofItem item).forM print
      report := report ++ [item]
    (Journal.closing report).forM print
    return 0

end FeatureDepot.Main

open FeatureDepot in
def main (words : List String) : IO UInt32 := do
  match CommandLine.parse words with
  | .shown =>
    IO.println Main.usage
    return 0
  | .misused =>
    IO.eprintln Main.usage
    return 2
  | .run invocation =>
    let fs ← Main.bring (← Main.emptySystem) [invocation.settings]
    match Settings.load (← IO.getEnv "HOME") invocation.settings fs with
    | .error f =>
      Main.print (Journal.ofFailure f)
      return 1
    | .ok s => Main.runWith (← Main.machine) (invocation.apply s)
