/-! Writing markup: elements with indentation, one on a line. -/
namespace FeatureDepot.Markup

/-- An element to write, with text in it or with elements below it. -/
inductive Written
  | leaf (name content : List Char)
  | branch (name : List Char) (attributes : List (List Char × List Char)) (children : List Written)

/-- The reference that stands for a character that would be markup in text. -/
def escapeChar (c : Char) : List Char :=
  match c with
  | '<' => "&lt;".toList
  | '>' => "&gt;".toList
  | '&' => "&amp;".toList
  | c => [c]

def escapeText (cs : List Char) : List Char := cs.flatMap escapeChar

/-- In a value a double quote is escaped too. -/
def escapeValue (cs : List Char) : List Char :=
  cs.flatMap fun c => if c = '"' then "&quot;".toList else escapeChar c

namespace Written

/-- The start of a line in a given depth. -/
def indent (depth : Nat) : List Char := '\n' :: List.replicate (2 * depth) ' '

/-- An element without content is one tag. -/
def between (opening name content : List Char) : List Char :=
  if content.isEmpty then '<' :: opening ++ "/>".toList
  else '<' :: opening ++ ['>'] ++ content ++ "</".toList ++ name ++ ['>']

mutual

/-- The text of an element in a given depth. -/
def render (depth : Nat) : Written → List Char
  | leaf name content => between name name (escapeText content)
  | branch name attributes children =>
    let opening := name ++ attributes.flatMap fun (key, value) =>
      ' ' :: key ++ "=\"".toList ++ escapeValue value ++ ['"']
    match renderAll (depth + 1) children with
    | [] => between opening name []
    | lines => between opening name (lines ++ indent depth)

/-- The text of elements on lines of their own. -/
def renderAll (depth : Nat) : List Written → List Char
  | [] => []
  | w :: ws => indent depth ++ render depth w ++ renderAll depth ws

end

end Written
end FeatureDepot.Markup
