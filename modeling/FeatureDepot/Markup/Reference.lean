import FeatureDepot.Markup.Character

/-! References in a markup text: the five named ones, and numbers of characters. -/
namespace FeatureDepot.Markup

open Text

/-- Why a numeric reference names no character. -/
inductive NumberFault
  | signed
  | empty
  | notADigit
  | tooLarge
  | zero
  | notACharacter (value : Nat)
  deriving DecidableEq, Repr

/-- Why a reference cannot be replaced. Positions are given as the first byte and the one behind. -/
inductive ReferenceFault
  | unknown (start stop : Nat) (name : String)
  | unterminated (start stop : Nat)
  | number (fault : NumberFault)
  deriving DecidableEq, Repr

def NumberFault.message : NumberFault → String
  | signed => "unexpected number sign"
  | empty => "cannot parse integer from empty string"
  | notADigit => "invalid digit found in string"
  | tooLarge => "number too large to fit in target type"
  | zero => "0x0 character is not permitted in XML"
  | notACharacter value => "`" ++ toString value ++ "` is not a valid codepoint"

def ReferenceFault.message : ReferenceFault → String
  | unknown start stop name =>
    "at " ++ toString start ++ ".." ++ toString stop ++ ": unrecognized entity `" ++ name ++ "`"
  | unterminated start stop =>
    "Error while escaping character at range " ++ toString start ++ ".." ++ toString stop ++
      ": Cannot find ';' after '&'"
  | number fault => "invalid character reference: " ++ fault.message

/-- Reads digits behind a value already read, as long as it fits into 32 bits. -/
def readDigits (base : Nat) : Nat → List Char → Except NumberFault Nat
  | value, [] => .ok value
  | value, c :: cs =>
    match digit? base c with
    | none => .error .notADigit
    | some d =>
      if base * value + d < 0x100000000 then readDigits base (base * value + d) cs
        else .error .tooLarge

/-- The number that a numeric reference holds, without a sign. -/
def unsigned (base : Nat) : List Char → Except NumberFault Nat
  | [] => .error .empty
  | c :: cs => if c = '+' ∨ c = '-' then .error .signed else readDigits base 0 (c :: cs)

/-- The character that a numeric reference names, with an x in front in hexadecimal. -/
def numbered (cs : List Char) : Except NumberFault Char := do
  let value ← match cs with
    | 'x' :: digits => unsigned 16 digits
    | digits => unsigned 10 digits
  if value = 0 then .error .zero
  else if h : value.isValidChar then .ok (Char.ofNatAux value h)
  else .error (.notACharacter value)

/-- The character that a name stands for. -/
def named? (name : List Char) : Option Char :=
  if name = "lt".toList then some '<'
  else if name = "gt".toList then some '>'
  else if name = "amp".toList then some '&'
  else if name = "apos".toList then some '\''
  else if name = "quot".toList then some '"'
  else none

/-- The character for what stands between the ampersand and the semicolon, which starts at a given
position. -/
def resolve (start : Nat) (name : List Char) : Except ReferenceFault Char :=
  match name with
  | '#' :: digits => (numbered digits).mapError .number
  | _ =>
    match named? name with
    | some c => .ok c
    | none => .error (.unknown start (start + size name) (String.ofList name))

/-- Replaces the references in an attribute's value, from a position on in a text of a given
size. -/
def unescapeFrom (position total : Nat) (cs : List Char) : Except ReferenceFault (List Char) :=
  match cs with
  | [] => .ok []
  | c :: cs =>
    if c = '&' then
      let name := cs.takeWhile fun c => c != '&' && c != ';'
      match h : cs.dropWhile (fun c => c != '&' && c != ';') with
      | ';' :: rest => do
        let c ← resolve (position + 1) name
        let cs ← unescapeFrom (position + size name + 2) total rest
        .ok (c :: cs)
      | _ => .error (.unterminated position total)
    else (unescapeFrom (position + c.utf8Size) total cs).map (c :: ·)
termination_by cs.length
decreasing_by
  · have := (cs.dropWhile_sublist fun c => c != '&' && c != ';').length_le
    simp_all
    omega
  · simp

/-- Replaces the references in an attribute's value. -/
def unescape (cs : List Char) : Except ReferenceFault (List Char) := unescapeFrom 0 (size cs) cs

end FeatureDepot.Markup
