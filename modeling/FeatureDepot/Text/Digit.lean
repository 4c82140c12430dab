/-! Decimal digits: the characters that a pattern for digits accepts in any script, and the numbers
that runs of the ten basic digits denote. -/
namespace FeatureDepot.Text

/-- The zero of every run of ten decimal digits in Unicode (general category Nd). -/
def digitZeros : List Nat :=
  [0x30, 0x660, 0x6F0, 0x7C0, 0x966, 0x9E6, 0xA66, 0xAE6, 0xB66, 0xBE6, 0xC66, 0xCE6, 0xD66, 0xDE6,
   0xE50, 0xED0, 0xF20, 0x1040, 0x1090, 0x17E0, 0x1810, 0x1946, 0x19D0, 0x1A80, 0x1A90, 0x1B50,
   0x1BB0, 0x1C40, 0x1C50, 0xA620, 0xA8D0, 0xA900, 0xA9D0, 0xA9F0, 0xAA50, 0xABF0, 0xFF10, 0x104A0,
   0x10D30, 0x10D40, 0x11066, 0x110F0, 0x11136, 0x111D0, 0x112F0, 0x11450, 0x114D0, 0x11650,
   0x116C0, 0x116D0, 0x116DA, 0x11730, 0x118E0, 0x11950, 0x11BF0, 0x11C50, 0x11D50, 0x11DA0,
   0x11F50, 0x16130, 0x16A60, 0x16AC0, 0x16B50, 0x16D70, 0x1CCF0, 0x1D7CE, 0x1D7D8, 0x1D7E2,
   0x1D7EC, 0x1D7F6, 0x1E140, 0x1E2F0, 0x1E4F0, 0x1E5F1, 0x1E950, 0x1FBF0]

/-- A decimal digit of any script. -/
def isDecimalDigit (c : Char) : Bool := digitZeros.any fun z => z ≤ c.toNat && c.toNat < z + 10

/-- The value of a run of basic digits, most significant first, behind a value already read. -/
def valueFrom (value : Nat) (digits : List Char) : Nat :=
  digits.foldl (fun n c => 10 * n + (c.toNat - '0'.toNat)) value

/-- The number that a non-empty run of basic digits denotes. -/
def number? (digits : List Char) : Option Nat :=
  if digits ≠ [] ∧ digits.all Char.isDigit then some (valueFrom 0 digits) else none

/-- The number that a run of basic digits denotes, if it fits into 32 bits. -/
def word? (digits : List Char) : Option UInt32 :=
  (number? digits).bind fun n => if n < UInt32.size then some (UInt32.ofNat n) else none

theorem isDigit_of_word? {digits : List Char} {n : UInt32} (h : word? digits = some n) :
    ∀ c ∈ digits, c.isDigit := by
  obtain ⟨value, hnumber, -⟩ := Option.bind_eq_some_iff.mp h
  unfold number? at hnumber
  split at hnumber
  next hdigits => exact List.all_eq_true.mp hdigits.2
  next => cases hnumber

/-- A number is read from its own digits. -/
theorem word?_toString (n : UInt32) : word? (toString n.toNat : String).toList = some n := by
  have hdigits : (toString n.toNat : String).toList = Nat.toDigits 10 n.toNat := Nat.toList_repr
  have hall : ∀ c ∈ Nat.toDigits 10 n.toNat, c.isDigit :=
    fun c hc => Nat.isDigit_of_mem_toDigits (by decide) (by decide) hc
  have hvalue : valueFrom 0 (Nat.toDigits 10 n.toNat) = n.toNat :=
    Nat.ofDigitChars_toDigits (by decide) (by decide)
  have hnumber : number? (Nat.toDigits 10 n.toNat) = some n.toNat := by
    unfold number?
    rw [if_pos ⟨Nat.toDigits_ne_nil, List.all_eq_true.mpr hall⟩, hvalue]
  unfold word?
  rw [hdigits, hnumber, Option.bind_some, if_pos n.toNat_lt_size, UInt32.ofNat_toNat]

end FeatureDepot.Text
