import FeatureDepot.Digest.Block

/-! The SHA-1 digest. -/
namespace FeatureDepot.Digest.SHA1

structure State where
  a : UInt32
  b : UInt32
  c : UInt32
  d : UInt32
  e : UInt32
  deriving DecidableEq, Repr

/-- Adds words to the sixteen of a block: each is made of the words 3, 8, 14 and 16 places before
it. -/
def expand (words : Array UInt32) : Array UInt32 :=
  (List.range 64).foldl (fun ws i =>
    ws.push (rotate (ws.getD (i + 13) 0 ^^^ ws.getD (i + 8) 0 ^^^ ws.getD (i + 2) 0 ^^^ ws.getD i 0)
      1)) words

/-- How a round mixes three words, and the constant that it adds. -/
def mix (round : Nat) (b c d : UInt32) : UInt32 :=
  match round with
  | 0 => ((b &&& c) ||| (~~~b &&& d)) + 0x5A827999
  | 1 => (b ^^^ c ^^^ d) + 0x6ED9EBA1
  | 2 => ((b &&& c) ||| (b &&& d) ||| (c &&& d)) + 0x8F1BBCDC
  | _ => (b ^^^ c ^^^ d) + 0xCA62C1D6

/-- One of the 80 steps of a block. -/
def step (words : Array UInt32) (s : State) (i : Nat) : State :=
  ⟨rotate s.a 5 + mix (i / 20) s.b s.c s.d + s.e + words.getD i 0, s.a, rotate s.b 30, s.c, s.d⟩

def compress (s : State) (block : Bytes) : State :=
  let words := expand (bigWords block).toArray
  let t := (List.range 80).foldl (step words) s
  ⟨s.a + t.a, s.b + t.b, s.c + t.c, s.d + t.d, s.e + t.e⟩

def algorithm : BlockDigest State where
  start := ⟨0x67452301, 0xEFCDAB89, 0x98BADCFE, 0x10325476, 0xC3D2E1F0⟩
  compress := compress
  lengthBytes := bigEndian 8
  output s := [s.a, s.b, s.c, s.d, s.e].flatMap fun word => bigEndian 4 word.toNat

example :
    hex (algorithm.digest [0x61, 0x62, 0x63]) = "a9993e364706816aba3e25717850c26c9cd0d89d" := by
  decide +kernel

end FeatureDepot.Digest.SHA1
