import FeatureDepot.Text.Character

/-! Texts and names in a markup text: white space around them, line ends, and prefixes. -/
namespace FeatureDepot.Markup

open Text

/-- Cuts off the white space at both ends. -/
def trimBlank (cs : List Char) : List Char :=
  ((cs.dropWhile isBlank).reverse.dropWhile isBlank).reverse

/-- Every line end becomes a line feed: a carriage return, alone or before a line feed or a
next-line character, the next-line character itself, and the line separator. -/
def unifyLineEnds : List Char → List Char
  | [] => []
  | '\r' :: '\n' :: cs => '\n' :: unifyLineEnds cs
  | '\r' :: '\u0085' :: cs => '\n' :: unifyLineEnds cs
  | c :: cs => (if c = '\r' ∨ c = '\u0085' ∨ c = '\u2028' then '\n' else c) :: unifyLineEnds cs

/-- The part of a qualified name behind its prefix. -/
def localName (name : List Char) : List Char :=
  match name.dropWhile (· != ':') with
  | _ :: rest => rest
  | [] => name

/-- The prefix of a qualified name. -/
def prefix? (name : List Char) : Option (List Char) :=
  if name.contains ':' then some (name.takeWhile (· != ':')) else none

end FeatureDepot.Markup
