import FeatureDepot.Text.Printable

/-! Texts in quotes, as messages show them. -/
namespace FeatureDepot.Text

/-- A character between quotes. -/
def quotedChar (c : Char) : List Char :=
  match c with
  | '"' => ['\\', '"']
  | '\\' => ['\\', '\\']
  | '\t' => ['\\', 't']
  | '\n' => ['\\', 'n']
  | '\r' => ['\\', 'r']
  | '\x00' => ['\\', '0']
  | c => if isShown c then [c] else "\\u\x7b".toList ++ Nat.toDigits 16 c.toNat ++ ['}']

/-- A text in quotes. Quotes, backslashes and characters that would not show are escaped. -/
def quoted (cs : List Char) : List Char := '"' :: cs.flatMap quotedChar ++ ['"']

example : quoted "a\"b\u00ad".toList = "\"a\\\"b\\u\x7bad\x7d\"".toList := by decide +kernel

end FeatureDepot.Text
