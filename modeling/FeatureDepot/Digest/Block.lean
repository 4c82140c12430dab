import FeatureDepot.Bytes

/-! Digests that work block by block. A message is padded to whole blocks of 64 bytes, and a state
is carried from block to block. A running digest takes the message in pieces, and keeps the bytes
behind the last whole block until there are enough of them. -/
namespace FeatureDepot.Digest

/-- The number of bytes in a block. -/
def blockSize : Nat := 64

/-- A digest over blocks: its first state, how a block changes a state, how the eight bytes for the
length of the message in bits are written, and the bytes of the digest. -/
structure BlockDigest (σ : Type) where
  start : σ
  compress : σ → Bytes → σ
  lengthBytes : Nat → Bytes
  output : σ → Bytes

namespace BlockDigest

variable {σ : Type}

/-- Compresses whole blocks from the start of some bytes, and returns the bytes behind them. -/
def compressAll (d : BlockDigest σ) (state : σ) (bytes : Bytes) : σ × Bytes :=
  if bytes.drop (blockSize - 1) = [] then (state, bytes)
  else d.compressAll (d.compress state (bytes.take blockSize)) (bytes.drop blockSize)
termination_by bytes.length
decreasing_by
  rename_i h
  simp only [List.drop_eq_nil_iff, blockSize] at h ⊢
  simp
  omega

/-- The bytes behind a message of a given length that fill its last block: a one bit, zeros, and the
length in bits. -/
def padding (d : BlockDigest σ) (length : Nat) : Bytes :=
  0x80 :: List.replicate ((2 * blockSize - 9 - length % blockSize) % blockSize) 0 ++
    d.lengthBytes (8 * length)

/-- The digest of a message. -/
def digest (d : BlockDigest σ) (message : Bytes) : Bytes :=
  d.output (d.compressAll d.start (message ++ d.padding message.length)).1

end BlockDigest

/-- A digest of a message that is not yet complete: the state behind its whole blocks, the bytes
behind them, and its length so far. -/
structure Running (σ : Type) where
  state : σ
  pending : Bytes
  length : Nat

namespace Running

variable {σ : Type}

def start (d : BlockDigest σ) : Running σ := ⟨d.start, [], 0⟩

/-- Adds a piece of the message. -/
def add (d : BlockDigest σ) (r : Running σ) (piece : Bytes) : Running σ :=
  let (state, pending) := d.compressAll r.state (r.pending ++ piece)
  ⟨state, pending, r.length + piece.length⟩

/-- The digest of the message so far. -/
def result (d : BlockDigest σ) (r : Running σ) : Bytes :=
  d.output (d.compressAll r.state (r.pending ++ d.padding r.length)).1

end Running

/-- The bytes of a number, least significant first. -/
def littleEndian : (count : Nat) → Nat → Bytes
  | 0, _ => []
  | count + 1, n => UInt8.ofNat n :: littleEndian count (n / 256)

/-- The bytes of a number, most significant first. -/
def bigEndian (count n : Nat) : Bytes := (littleEndian count n).reverse

/-- The words whose bytes stand in a block, least significant first. -/
def littleWords : Bytes → List UInt32
  | a :: b :: c :: d :: bytes =>
    (a.toUInt32 ||| b.toUInt32 <<< 8 ||| c.toUInt32 <<< 16 ||| d.toUInt32 <<< 24) ::
      littleWords bytes
  | _ => []

/-- The words whose bytes stand in a block, most significant first. -/
def bigWords : Bytes → List UInt32
  | a :: b :: c :: d :: bytes =>
    (a.toUInt32 <<< 24 ||| b.toUInt32 <<< 16 ||| c.toUInt32 <<< 8 ||| d.toUInt32) :: bigWords bytes
  | _ => []

/-- Turns the bits of a word to the left. -/
def rotate (word : UInt32) (count : UInt32) : UInt32 := word <<< count ||| word >>> (32 - count)

/-- Bytes in hexadecimal, with small letters. -/
def hex (bytes : Bytes) : String :=
  String.ofList (bytes.flatMap fun b => [Nat.digitChar (b.toNat / 16),
    Nat.digitChar (b.toNat % 16)])

end FeatureDepot.Digest
