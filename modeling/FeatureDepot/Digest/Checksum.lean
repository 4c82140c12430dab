import FeatureDepot.Digest.MD5
import FeatureDepot.Digest.SHA1

/-! The checksums that a repository keeps beside its files. -/
namespace FeatureDepot

open Digest

/-- The kinds of checksums. -/
inductive ChecksumKind
  | md5
  | sha1
  deriving DecidableEq, Repr

namespace ChecksumKind

/-- All kinds, in the order in which they are written. -/
def all : List ChecksumKind := [md5, sha1]

/-- The ending of the names of checksum files. -/
def ending : ChecksumKind → String
  | md5 => "md5"
  | sha1 => "sha1"

/-- The checksum of a content. -/
def checksum (content : Bytes) : ChecksumKind → String
  | md5 => hex (MD5.algorithm.digest content)
  | sha1 => hex (SHA1.algorithm.digest content)

end ChecksumKind

/-- The checksums of a content, by their kinds. -/
def checksums (content : Bytes) : List (ChecksumKind × String) :=
  ChecksumKind.all.map fun k => (k, k.checksum content)

/-- Running checksums of a content that comes in pieces. -/
structure Tally where
  md5 : Running MD5.State
  sha1 : Running SHA1.State

namespace Tally

def start : Tally := ⟨.start MD5.algorithm, .start SHA1.algorithm⟩

def add (t : Tally) (piece : Bytes) : Tally :=
  ⟨t.md5.add MD5.algorithm piece, t.sha1.add SHA1.algorithm piece⟩

/-- The checksums of the content so far. -/
def result (t : Tally) : List (ChecksumKind × String) :=
  [(.md5, hex (t.md5.result MD5.algorithm)), (.sha1, hex (t.sha1.result SHA1.algorithm))]

/-- Passes on the items of a stream, each with the running checksums behind it. An item that is a
failure adds nothing. -/
def watch {ε : Type} (t : Tally) : List (Except ε Bytes) → List (Except ε Bytes × Tally)
  | [] => []
  | .ok piece :: items => (.ok piece, t.add piece) :: (t.add piece).watch items
  | .error e :: items => (.error e, t) :: t.watch items

/-- The running checksums behind a stream. -/
def behind {ε : Type} (t : Tally) : List (Except ε Bytes) → Tally
  | [] => t
  | .ok piece :: items => (t.add piece).behind items
  | .error _ :: items => t.behind items

end Tally
end FeatureDepot
