import FeatureDepot.Digest.Checksum
import FeatureDepot.Disk

/-! Files that hold the checksums of the file beside them. -/
namespace FeatureDepot.ChecksumFile

/-- The path of a checksum file. -/
def path (file : Path) (kind : ChecksumKind) : Path := file.extend ("." ++ kind.ending)

/-- The checksums of the content of a file. -/
def compute (file : Path) : Disk (List (ChecksumKind × String)) :=
  return checksums (← Disk.look (·.read file))

/-- Writes the checksum files of a file, and returns their paths. -/
def writeAll (host : Host) (file : Path) : Disk (List Path) := do
  (← compute file).mapM fun (kind, text) => do
    Disk.replace host (path file kind) [.ok (Bytes.encode text)]
    return path file kind

end FeatureDepot.ChecksumFile
