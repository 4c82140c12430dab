import FeatureDepot.Json.Number

/-! Quoted texts of a JSON text, whose escapes stand for characters, by name or by one or two
numbers. -/
namespace FeatureDepot.Json

/-- The character that a letter behind a backslash stands for. -/
def named? (c : Char) : Option Char :=
  match c with
  | '"' => some '"'
  | '\\' => some '\\'
  | '/' => some '/'
  | 'b' => some '\x08'
  | 'f' => some '\x0c'
  | 'n' => some '\n'
  | 'r' => some '\r'
  | 't' => some '\t'
  | _ => none

/-- Reads four hexadecimal digits. A text of fewer than four bytes ends too early. -/
def readHex : Reader Nat
  | a :: b :: c :: d :: cs =>
    match [a, b, c, d].mapM (Text.digit? 16) with
    | some digits => .ok (digits.foldl (16 * · + ·) 0, ⟨cs, by simp; omega⟩)
    | none => .error (.syntaxFault .invalidEscape)
  | cs =>
    if Text.size cs < 4 then .error (.ended .text) else .error (.syntaxFault .invalidEscape)

/-- The first number of a pair that stands for one character. -/
def isHighSurrogate (n : Nat) : Bool := 0xD800 ≤ n && n < 0xDC00

/-- The second number of such a pair. -/
def isLowSurrogate (n : Nat) : Bool := 0xDC00 ≤ n && n < 0xE000

/-- Reads the second number of a pair with its backslash and letter. -/
def readLowSurrogate (high : Nat) : Reader Char
  | [] | ['\\'] => .error (.ended .text)
  | '\\' :: 'u' :: cs => do
    let (low, ⟨rest, h⟩) ← readHex cs
    if isLowSurrogate low then
      .ok (Char.ofNat ((high - 0xD800) * 0x400 + (low - 0xDC00) + 0x10000), ⟨rest, by simp; omega⟩)
    else .error (.syntaxFault .loneSurrogate)
  | _ => .error (.syntaxFault .brokenSurrogate)

/-- Reads a character by number. -/
def readNumbered : Reader Char := fun cs => do
  let (n, ⟨rest, h⟩) ← readHex cs
  if isLowSurrogate n then .error (.syntaxFault .loneSurrogate)
  else if isHighSurrogate n then
    let (c, ⟨rest, h'⟩) ← readLowSurrogate n rest
    .ok (c, ⟨rest, by omega⟩)
  else .ok (Char.ofNat n, ⟨rest, h⟩)

/-- Passes over the number of a character, whatever it is. -/
def skipNumbered : Reader Char := fun cs => do
  let (_, rest) ← readHex cs
  .ok ('\x00', rest)

/-- Reads what comes behind a backslash. -/
def readEscape (numbered : Reader Char) : Reader Char
  | [] => .error (.ended .text)
  | 'u' :: cs => do
    let (c, ⟨rest, h⟩) ← numbered cs
    .ok (c, ⟨rest, Nat.lt_succ_of_lt h⟩)
  | c :: cs =>
    match named? c with
    | some c => .ok (c, ⟨cs, Nat.lt_succ_self _⟩)
    | none => .error (.syntaxFault .invalidEscape)

/-- Reads a text behind its opening quote up to the closing one. -/
def readQuoted (numbered : Reader Char) (cs : List Char) : Except Fault (List Char × Rest cs) :=
  match cs with
  | [] => .error (.ended .text)
  | c :: cs =>
    if c = '"' then .ok ([], ⟨cs, Nat.lt_succ_self _⟩)
    else if c = '\\' then do
      let (c, ⟨rest, h⟩) ← readEscape numbered cs
      let (content, ⟨rest, h'⟩) ← readQuoted numbered rest
      .ok (c :: content, ⟨rest, Nat.lt_succ_of_lt (Nat.lt_trans h' h)⟩)
    else if c < ' ' then .error (.syntaxFault .controlCharacter)
    else do
      let (content, ⟨rest, h⟩) ← readQuoted numbered cs
      .ok (c :: content, ⟨rest, Nat.lt_succ_of_lt h⟩)
termination_by cs.length
decreasing_by
  · exact Nat.lt_succ_of_lt h
  · exact Nat.lt_succ_self _

end FeatureDepot.Json
