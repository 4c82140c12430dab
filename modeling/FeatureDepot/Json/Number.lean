import FeatureDepot.Json.Fault
import FeatureDepot.Text.Character

/-! Numbers of a JSON text: their grammar, and their values as whole numbers or as floating-point
ones. -/
namespace FeatureDepot.Json

open Text

/-- What is left of a text behind a part of it that is not empty. -/
abbrev Rest (cs : List Char) := { rest : List Char // rest.length < cs.length }

/-- What is left of a text behind a part of it that may be empty. -/
abbrev OptionalRest (cs : List Char) := { rest : List Char // rest.length ≤ cs.length }

/-- A text of which nothing was read. -/
def OptionalRest.all (cs : List Char) : OptionalRest cs := ⟨cs, Nat.le_refl _⟩

/-- A rest behind a part that is not empty is one behind a part that may be. -/
def Rest.optional {cs : List Char} (rest : Rest cs) : OptionalRest cs :=
  ⟨rest.val, Nat.le_of_lt rest.property⟩

/-- Reads a part of a text from its start. -/
abbrev Reader (α : Type) := (cs : List Char) → Except Fault (α × Rest cs)

/-- The digits of a number: before the point, behind it, and of an exponent that may be negative. -/
structure NumberText where
  whole : List Char
  fraction : List Char
  exponent : Option (Bool × List Char)
  deriving DecidableEq, Repr

/-- Reads one digit or more. `atEnd` is the fault if the text ends there. -/
def readDigits (atEnd : Fault) : Reader (List Char)
  | [] => .error atEnd
  | c :: cs =>
    if c.isDigit then
      .ok (c :: cs.takeWhile Char.isDigit, ⟨cs.dropWhile Char.isDigit, by
        have := (cs.dropWhile_sublist Char.isDigit).length_le
        simp
        omega⟩)
    else .error (.syntaxFault .invalidNumber)

/-- Reads the digits before a point; a zero stands alone. -/
def readWhole (atEnd : Fault) : Reader (List Char)
  | '0' :: cs =>
    if cs.head?.any Char.isDigit then .error (.syntaxFault .invalidNumber)
      else .ok (['0'], ⟨cs, by simp⟩)
  | cs => readDigits atEnd cs

/-- The sign in front of an exponent, and the text behind it. -/
def exponentSign (cs : List Char) : Bool × List Char :=
  match cs with
  | '+' :: rest => (false, rest)
  | '-' :: rest => (true, rest)
  | cs => (false, cs)

theorem length_exponentSign (cs : List Char) : (exponentSign cs).2.length ≤ cs.length := by
  unfold exponentSign
  split <;> simp

/-- Reads a fraction behind its point, if there is one. -/
def readFraction (atEnd : Fault) (cs : List Char) : Except Fault (List Char × OptionalRest cs) :=
  match cs with
  | '.' :: tail => do
    let (fraction, ⟨rest, h⟩) ← readDigits atEnd tail
    .ok (fraction, ⟨rest, by simp; omega⟩)
  | cs => .ok ([], .all cs)

/-- Reads an exponent behind its letter, if there is one. -/
def readExponent (atEnd : Fault) (cs : List Char) :
    Except Fault (Option (Bool × List Char) × OptionalRest cs) :=
  match cs with
  | [] => .ok (none, .all [])
  | c :: tail =>
    if c = 'e' ∨ c = 'E' then do
      let (digits, ⟨rest, h⟩) ← readDigits atEnd (exponentSign tail).2
      .ok (some ((exponentSign tail).1, digits), ⟨rest, by
        have := length_exponentSign tail
        simp
        omega⟩)
    else .ok (none, .all (c :: tail))

/-- Reads a number without its sign. -/
def readNumberText (atEnd : Fault) : Reader NumberText := fun cs => do
  let (whole, ⟨rest, h⟩) ← readWhole atEnd cs
  let (fraction, ⟨rest, h'⟩) ← readFraction atEnd rest
  let (exponent, ⟨rest, h''⟩) ← readExponent atEnd rest
  .ok (⟨whole, fraction, exponent⟩, ⟨rest, by omega⟩)

/-- Adds digits to a number as long as it fits into 64 bits. Counts the digits that are left. -/
def fit (value : Nat) : List Char → Nat × Nat
  | [] => (value, 0)
  | c :: cs =>
    let next := 10 * value + (c.toNat - '0'.toNat)
    if next < 0x10000000000000000 then fit next cs else (value, cs.length + 1)

/-- A significand multiplied by a power of ten, in floating-point steps of at most 308 digits. -/
def scale (x : Float) (exponent : Int) : Except Fault Float :=
  if 0 ≤ exponent then
    if 308 < exponent then if x == 0.0 then .ok x else .error (.syntaxFault .numberOutOfRange)
    else
      let x := x * Float.ofScientific 1 false exponent.toNat
      if x.isInf then .error (.syntaxFault .numberOutOfRange) else .ok x
  else if -308 ≤ exponent then .ok (x / Float.ofScientific 1 false (-exponent).toNat)
  else if x == 0.0 then .ok x
  else scale (x / 1e308) (exponent + 308)
termination_by (-exponent).toNat
decreasing_by omega

/-- The greatest exponent that is computed with. -/
def maxExponent : Nat := 0x7FFFFFFF

/-- The value of a number with a point, an exponent or too many digits. -/
def NumberText.float (t : NumberText) : Except Fault Float :=
  let (significand, dropped) := fit 0 t.whole
  let (significand, left) := fit significand t.fraction
  let exponent : Int := dropped - (t.fraction.length - left : Nat)
  match t.exponent with
  | none => scale (Float.ofNat significand) exponent
  | some (negative, digits) =>
    let power := digits.foldl (fun n c => min (10 * n + (c.toNat - '0'.toNat)) (maxExponent + 1)) 0
    if power > maxExponent then
      if significand ≠ 0 ∧ !negative then .error (.syntaxFault .numberOutOfRange) else .ok 0.0
    else scale (Float.ofNat significand) (if negative then exponent - power else exponent + power)

/-- The value of a number as a message names it. A whole number of 64 bits stays one, except for a
negative zero. -/
def NumberText.found (negative : Bool) (t : NumberText) : Except Fault Found := do
  let (value, left) := fit 0 t.whole
  let isWhole := left == 0 && t.fraction.isEmpty && t.exponent.isNone
  if isWhole && !negative then .ok (.integer value)
  else if isWhole && value ≠ 0 && value ≤ 0x8000000000000000 then .ok (.integer (-value))
  else
    let x ← t.float
    .ok (.float (Decimal.text (if negative then -x else x)))

end FeatureDepot.Json
