/-! The shortest decimal that reads back. A binary number stands for all reals that are nearer to it
than to its neighbours; of the decimals among those, one with the fewest digits is taken, and of
such the nearest. -/
namespace FeatureDepot.Decimal

/-- A decimal number without its sign: `digits · 10 ^ exponent`. -/
structure Scaled where
  digits : Nat
  exponent : Int
  deriving DecidableEq, Repr

/-- A positive number and the ends of the interval that it stands for, over one denominator. -/
structure Interval where
  low : Nat
  value : Nat
  high : Nat
  denominator : Nat
  closed : Bool
  deriving DecidableEq, Repr

namespace Interval

/-- The interval of `m · 2 ^ q`. Its ends lie half way to the neighbours, of which the one below is
nearer where the mantissa is the least of its exponent. The ends belong to it if the mantissa is
even. -/
def ofBinary (m : Nat) (q : Int) (least : Bool) : Interval :=
  let scale := Nat.pow 2 q.toNat
  { low := (4 * m - if least then 1 else 2) * scale
    value := 4 * m * scale
    high := (4 * m + 2) * scale
    denominator := 4 * Nat.pow 2 (-q).toNat
    closed := m % 2 == 0 }

/-- The interval multiplied by a power of ten. -/
def scaled (i : Interval) (exponent : Int) : Interval :=
  let n := Nat.pow 10 exponent.toNat
  { i with
    low := i.low * n
    value := i.value * n
    high := i.high * n
    denominator := i.denominator * Nat.pow 10 (-exponent).toNat }

/-- Whether a whole number lies in the interval. -/
def holds (i : Interval) (n : Nat) : Bool :=
  let n := n * i.denominator
  if i.closed then i.low ≤ n && n ≤ i.high else i.low < n && n < i.high

/-- The whole number in the interval that is nearest to its value, if it is the one below or above.
Of two that are equally near, the even one is taken. -/
def nearest? (i : Interval) : Option Nat :=
  let below := i.value / i.denominator
  let rest := 2 * (i.value % i.denominator)
  let first := if rest < i.denominator ∨ rest = i.denominator ∧
  below % 2 = 0 then below else below + 1
  [first, below, below + 1].find? i.holds

/-- The exponent of the leading digit of the value, found downwards from a bound. -/
def leading (i : Interval) : (steps : Nat) → Int → Int
  | 0, exponent => exponent
  | steps + 1, exponent =>
    let j := i.scaled (-exponent)
    if j.denominator ≤ j.value then exponent else i.leading steps (exponent - 1)

/-- The shortest decimal in the interval, with a number of digits that starts at a given one. -/
def shortestFrom (i : Interval) (leading : Int) : (steps count : Nat) → Scaled
  | 0, count => ⟨0, leading - count⟩
  | steps + 1, count =>
    let exponent := leading - count
    match (i.scaled (-exponent)).nearest? with
    | some digits => ⟨digits, exponent⟩
    | none => i.shortestFrom leading steps (count + 1)

end Interval

/-- A finite number of 64 bits: its sign, mantissa and exponent. -/
def parts (x : Float) : Bool × Nat × Int × Bool :=
  let bits : Nat := x.toBits.toNat
  let fraction : Nat := bits % Nat.pow 2 52
  let biased : Nat := bits / Nat.pow 2 52 % Nat.pow 2 11
  let negative := bits / Nat.pow 2 63 == 1
  if biased = 0 then (negative, fraction, -1074, false)
  else (negative, Nat.pow 2 52 + fraction, (biased : Int) - 1075, fraction == 0 && biased > 1)

/-- The shortest decimal for a positive number `m · 2 ^ q` of 64 bits. Seventeen digits always
suffice. -/
def shortest (m : Nat) (q : Int) (least : Bool) : Scaled :=
  let i := Interval.ofBinary m q least
  i.shortestFrom (i.leading 640 309) 17 0

/-- Drops zeros at the end of digits. -/
def dropZeros (digits : List Char) : List Char := (digits.reverse.dropWhile (· == '0')).reverse

/-- The text of a decimal: with a point where the leading digit stands at one of the exponents from
-5 to 15, and with an exponent of at least two digits elsewhere. -/
def Scaled.text (s : Scaled) : List Char :=
  let all := Nat.toDigits 10 s.digits
  let leading := s.exponent + all.length - 1
  let digits := dropZeros all
  if -5 ≤ leading ∧ leading < 0 then
    "0.".toList ++ List.replicate (-leading - 1).toNat '0' ++ digits
  else if 0 ≤ leading ∧ leading ≤ 15 then
    let whole := digits.take (leading.toNat + 1)
    let fraction := digits.drop (leading.toNat + 1)
    whole ++ List.replicate (leading.toNat + 1 - whole.length) '0' ++ '.' ::
      (if fraction.isEmpty then ['0'] else fraction)
  else
    let magnitude := Nat.toDigits 10 leading.natAbs
    digits.take 1 ++ (if digits.length ≤ 1 then [] else '.' :: digits.drop 1) ++
      'e' :: (if leading < 0 then '-' else '+') ::
        List.replicate (2 - magnitude.length) '0' ++ magnitude

/-- The text of a finite number. -/
def text (x : Float) : List Char :=
  let (negative, m, q, least) := parts x
  (if negative then ['-'] else []) ++ if m = 0 then "0.0".toList else (shortest m q least).text

example : (shortest 0x1999999999999A (-56) false).text = "0.1".toList := by decide +kernel

/-- The least positive number. -/
example : (shortest 1 (-1074) false).text = "5e-324".toList := by decide +kernel

end FeatureDepot.Decimal
