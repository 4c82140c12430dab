import FeatureDepot.Markup.Character
import FeatureDepot.Markup.Fault
import FeatureDepot.Text.Cut

/-! The tokens of a markup text. A text is cut into tokens up to its end or to the first construct
that is not closed; comments, instructions and the declaration leave no token. -/
namespace FeatureDepot.Markup

open Text

/-- A tag with what stands between its angle brackets, a piece of character data, or a document
type. -/
inductive Token
  | opening (content : List Char)
  | emptyElement (content : List Char)
  | closing (name : List Char)
  | text (cs : List Char)
  | literal (cs : List Char)
  | reference (name : List Char)
  | doctype
  deriving DecidableEq, Repr

namespace Token

/-- The content of a tag and the text behind it. An angle bracket in quotes does not end a tag. -/
def cutTag (quote : Option Char) : List Char → Except SyntaxFault (List Char × List Char)
  | [] => .error (match quote with | some q => .unclosedValue q | none => .unclosedTag)
  | c :: cs =>
    let longer (quote : Option Char) := (cutTag quote cs).map fun (a, b) => (c :: a, b)
    match quote with
    | some q => longer (if c = q then none else some q)
    | none => if c = '>' then .ok ([], cs) else longer (if c = '"' ∨ c = '\'' then some c else none)

theorem cutTag_eq_ok {quote : Option Char} {cs a b : List Char} (h : cutTag quote cs = .ok (a, b)) :
    cs = a ++ '>' :: b := by
  have longer {q : Option Char} {c : Char} {cs a b : List Char}
      (ih : ∀ {q a b}, cutTag q cs = .ok (a, b) → cs = a ++ '>' :: b)
      (h : (cutTag q cs).map (fun (a, b) => (c :: a, b)) = .ok (a, b)) : c :: cs =
      a ++ '>' :: b := by
    cases h' : cutTag q cs with
    | error e => rw [h'] at h; cases h
    | ok p =>
      rw [h'] at h
      obtain ⟨rfl, rfl⟩ := Prod.mk.injEq .. ▸ Except.ok.inj h
      simp [ih h']
  induction cs generalizing quote a b with
  | nil => cases quote <;> simp [cutTag] at h
  | cons c cs ih =>
    cases quote with
    | some q => exact longer ih h
    | none =>
      simp only [cutTag] at h
      split at h
      next hc => simp_all
      next => exact longer ih h

/-- A place in a document type, in the order in which they follow each other. -/
inductive DoctypePlace
  | front (quote : Option Char)
  | subset
  | comment
  | instruction
  | declaration (quote : Option Char)
  | back

/-- The text behind a document type. -/
def afterDoctype? : DoctypePlace → List Char → Option (List Char)
  | _, [] => none
  | .front (some q), c :: cs => afterDoctype? (.front (if c = q then none else some q)) cs
  | .front none, c :: cs =>
    if c = '>' then some cs
    else if c = '[' then afterDoctype? .subset cs
    else afterDoctype? (.front (if c = '"' ∨ c = '\'' then some c else none)) cs
  | .subset, '<' :: '!' :: '-' :: '-' :: cs => afterDoctype? .comment cs
  | .subset, '<' :: '?' :: cs => afterDoctype? .instruction cs
  | .subset, '<' :: cs => afterDoctype? (.declaration none) cs
  | .subset, c :: cs => afterDoctype? (if c = ']' then .back else .subset) cs
  | .comment, '-' :: '-' :: '>' :: cs => afterDoctype? .subset cs
  | .comment, _ :: cs => afterDoctype? .comment cs
  | .instruction, '?' :: '>' :: cs => afterDoctype? .subset cs
  | .instruction, _ :: cs => afterDoctype? .instruction cs
  | .declaration (some q), c :: cs =>
    afterDoctype? (.declaration (if c = q then none else some q)) cs
  | .declaration none, c :: cs =>
    if c = '>' then afterDoctype? .subset cs
    else afterDoctype? (.declaration (if c = '"' ∨ c = '\'' then some c else none)) cs
  | .back, c :: cs => if c = '>' then some cs else afterDoctype? .back cs

theorem length_afterDoctype? {place : DoctypePlace} {cs rest : List Char}
    (h : afterDoctype? place cs = some rest) : rest.length < cs.length := by
  fun_induction afterDoctype? place cs <;> grind

/-- A reading step: a token, if one was read, and the text behind it. -/
abbrev Step := Except Fault (Option Token × List Char)

/-- What comes behind an ampersand. -/
def readReference (cs : List Char) : Step :=
  let isName (c : Char) := c != ';' && c != '&' && c != '<'
  match cs.dropWhile isName with
  | ';' :: rest => .ok (some (.reference (cs.takeWhile isName)), rest)
  | _ => .error (.form .unclosedReference)

def readComment (cs : List Char) : Step :=
  match cs with
  | '-' :: cs =>
    match Text.cutText? "-->".toList cs with
    | some (_, rest) => .ok (none, rest)
    | none => .error (.syntaxFault .unclosedComment)
  | _ => .error (.syntaxFault .unclosedComment)

def readLiteral (cs : List Char) : Step :=
  match "CDATA[".toList.isPrefixOf? cs with
  | some cs =>
    match Text.cutText? "]]>".toList cs with
    | some (content, rest) => .ok (some (.literal content), rest)
    | none => .error (.syntaxFault .unclosedLiteral)
  | none => .error (.syntaxFault .unclosedLiteral)

/-- The word of a document type in upper case; it is read in any case. -/
def doctypeWord : List Char := "DOCTYPE".toList

def readDoctype (cs : List Char) : Step :=
  match afterDoctype? (.front none) cs with
  | some rest =>
    if (cs.take doctypeWord.length).map Char.toUpper ≠ doctypeWord then
      .error (.syntaxFault .unclosedDoctype)
    else if ((cs.take (cs.length - rest.length - 1)).drop doctypeWord.length).all isBlank then
      .error (.form .missingDoctypeName)
    else .ok (some .doctype, rest)
  | none => .error (.syntaxFault .unclosedDoctype)

/-- A declaration starts like an instruction for the target xml. -/
def isDeclaration (cs : List Char) : Bool :=
  match "xml".toList.isPrefixOf? cs with
  | some rest => rest.head?.all fun c => isBlank c || c == '?'
  | none => false

def readInstruction (cs : List Char) : Step :=
  if cs.head? = some '>' then .error (.syntaxFault .unclosedInstruction)
  else
    match Text.cutText? "?>".toList cs with
    | some (_, rest) => .ok (none, rest)
    | none =>
      .error (.syntaxFault (if isDeclaration cs then .unclosedDeclaration
        else .unclosedInstruction))

/-- The name in a closing tag, without white space behind it. -/
def closingName (content : List Char) : List Char :=
  if content.all isBlank then content else (content.reverse.dropWhile isBlank).reverse

def readClosing (cs : List Char) : Step :=
  match cutTag none cs with
  | .ok (content, rest) => .ok (some (.closing (closingName content)), rest)
  | .error fault => .error (.syntaxFault fault)

def readOpening (cs : List Char) : Step :=
  match cutTag none cs with
  | .ok (content, rest) =>
    .ok (some (if content.getLast? = some '/' then .emptyElement content.dropLast
      else .opening content), rest)
  | .error fault => .error (.syntaxFault fault)

/-- What comes behind an opening angle bracket. -/
def readMarkup (cs : List Char) : Step :=
  match cs with
  | [] => .error (.syntaxFault .unclosedTag)
  | '/' :: rest => readClosing rest
  | '?' :: rest => readInstruction rest
  | '!' :: '-' :: rest => readComment rest
  | '!' :: '[' :: rest => readLiteral rest
  | '!' :: c :: rest =>
    if c.toUpper = 'D' then readDoctype (c :: rest) else .error (.syntaxFault .unknownMarkup)
  | ['!'] => .error (.syntaxFault .unknownMarkup)
  | _ => readOpening cs

/-- Reads one token, which starts with the given character. -/
def step (c : Char) (cs : List Char) : Step :=
  let isText (c : Char) := c != '<' && c != '&'
  if c = '<' then readMarkup cs
  else if c = '&' then readReference cs
  else .ok (some (.text (c :: cs.takeWhile isText)), cs.dropWhile isText)

theorem length_of_cutTag {quote : Option Char} {cs a b : List Char}
    (h : cutTag quote cs = .ok (a, b)) :
    b.length ≤ cs.length := by
  rw [cutTag_eq_ok h]
  simp
  omega

theorem length_readClosing {cs rest : List Char} {t : Option Token}
    (h : readClosing cs = .ok (t, rest)) :
    rest.length ≤ cs.length := by
  unfold readClosing at h
  split at h <;> grind [→ length_of_cutTag]

theorem length_readOpening {cs rest : List Char} {t : Option Token}
    (h : readOpening cs = .ok (t, rest)) :
    rest.length ≤ cs.length := by
  unfold readOpening at h
  split at h <;> grind [→ length_of_cutTag]

theorem length_readInstruction {cs rest : List Char} {t : Option Token}
    (h : readInstruction cs = .ok (t, rest)) : rest.length ≤ cs.length := by
  unfold readInstruction at h
  grind [→ length_of_cutText?]

theorem length_readComment {cs rest : List Char} {t : Option Token}
    (h : readComment cs = .ok (t, rest)) :
    rest.length ≤ cs.length := by
  unfold readComment at h
  grind [→ length_of_cutText?]

theorem length_readLiteral {cs rest : List Char} {t : Option Token}
    (h : readLiteral cs = .ok (t, rest)) :
    rest.length ≤ cs.length := by
  unfold readLiteral at h
  grind [→ length_of_isPrefixOf?, → length_of_cutText?]

theorem length_readDoctype {cs rest : List Char} {t : Option Token}
    (h : readDoctype cs = .ok (t, rest)) :
    rest.length ≤ cs.length := by
  unfold readDoctype at h
  grind [→ length_afterDoctype?]

theorem length_readMarkup {cs rest : List Char} {t : Option Token}
    (h : readMarkup cs = .ok (t, rest)) :
    rest.length ≤ cs.length := by
  unfold readMarkup at h
  grind [→ length_readClosing, → length_readOpening, → length_readInstruction, → length_readComment,
    → length_readLiteral, → length_readDoctype]

theorem length_step {c : Char} {cs rest : List Char} {t : Option Token}
    (h : step c cs = .ok (t, rest)) :
    rest.length ≤ cs.length := by
  have drop (p : Char → Bool) := (cs.dropWhile_sublist p).length_le
  unfold step at h
  split at h
  · exact length_readMarkup h
  · split at h
    · simp only [readReference] at h
      grind
    · grind

/-- The tokens of a text, and the fault at which it could not be read on. -/
def scan (cs : List Char) : List Token × Option Fault :=
  match cs with
  | [] => ([], none)
  | c :: cs =>
    match h : step c cs with
    | .error fault => ([], some fault)
    | .ok (token, rest) =>
      have : rest.length ≤ cs.length := length_step h
      let (tokens, fault) := scan rest
      (token.toList ++ tokens, fault)
termination_by cs.length
decreasing_by
  simp
  omega

/-- The tokens of a document, which may start with a byte order mark. -/
def scanDocument (cs : List Char) : List Token × Option Fault :=
  match cs with
  | '\ufeff' :: rest => scan rest
  | _ => scan cs

end Token
end FeatureDepot.Markup
