import FeatureDepot.Json.Quote

/-! Passing over JSON values of which only the grammar matters. They may nest without limit. -/
namespace FeatureDepot.Json

open Text

/-- The text behind white space. -/
def dropBlank (cs : List Char) : List Char := cs.dropWhile isBlank

theorem length_dropBlank (cs : List Char) : (dropBlank cs).length ≤ cs.length :=
  (cs.dropWhile_sublist isBlank).length_le

theorem length_lt_of_dropBlank {cs rest : List Char} {c : Char} (h : dropBlank cs = c :: rest) :
    rest.length < cs.length := by
  have hle := length_dropBlank cs
  rw [h] at hle
  exact hle

/-- Reads the rest of a word. -/
def readWord (word cs : List Char) : Except Fault (OptionalRest cs) :=
  match word, cs with
  | [], cs => .ok (.all cs)
  | _ :: _, [] => .error (.ended .value)
  | w :: word, c :: cs => do
    if c ≠ w then .error (.syntaxFault .noWord)
    let ⟨rest, h⟩ ← readWord word cs
    .ok ⟨rest, by simp; omega⟩

/-- A list or an object around a value. -/
inductive Enclosing
  | list
  | object
  deriving DecidableEq, Repr

namespace Enclosing

def bracket : Enclosing → Char
  | list => ']'
  | object => '}'

/-- The fault of a text that ends in the middle. -/
def ended : Enclosing → Fault
  | list => .ended .list
  | object => .ended .object

/-- The fault of parts without a comma between them. -/
def noPart : Enclosing → Fault
  | list => .syntaxFault .noListPart
  | object => .syntaxFault .noObjectPart

end Enclosing

/-- Reads the colon behind a key. -/
def readColon (cs : List Char) : Except Fault (OptionalRest cs) :=
  match h : dropBlank cs with
  | [] => .error (.ended .object)
  | c :: rest =>
    if c = ':' then .ok ⟨rest, Nat.le_of_lt (length_lt_of_dropBlank h)⟩
    else .error (.syntaxFault .noColon)

/-- Passes over a key and its colon. -/
def skipKey (cs : List Char) : Except Fault (OptionalRest cs) :=
  match h : dropBlank cs with
  | [] => .error (.ended .object)
  | c :: rest =>
    if c = '"' then do
      let (_, ⟨rest', h'⟩) ← readQuoted skipNumbered rest
      let ⟨rest'', h''⟩ ← readColon rest'
      .ok ⟨rest'', Nat.le_trans h'' (Nat.le_of_lt (Nat.lt_trans h' (length_lt_of_dropBlank h)))⟩
    else .error (.syntaxFault .noKey)

/-- Passes over the key of a part, if it has one. -/
def skipLabel (e : Enclosing) (cs : List Char) : Except Fault (OptionalRest cs) :=
  match e with
  | .list => .ok (.all cs)
  | .object => skipKey cs

/-- Passes over a value that is no list or object. -/
def skipSimple (c : Char) (cs : List Char) : Except Fault (OptionalRest cs) :=
  match c with
  | 'n' => readWord "ull".toList cs
  | 't' => readWord "rue".toList cs
  | 'f' => readWord "alse".toList cs
  | '"' => do
    let (_, rest) ← readQuoted skipNumbered cs
    .ok rest.optional
  | '-' => do
    let (_, rest) ← readNumberText (.syntaxFault .invalidNumber) cs
    .ok rest.optional
  | c => do
    if !c.isDigit then .error (.syntaxFault .noValue)
    let (_, ⟨rest, h⟩) ← readNumberText (.syntaxFault .invalidNumber) (c :: cs)
    .ok ⟨rest, Nat.le_of_lt_succ h⟩

mutual

/-- Passes over a value and the rest of what encloses it. -/
def skipValue (outer : List Enclosing) (cs : List Char) : Except Fault (OptionalRest cs) :=
  match h : dropBlank cs with
  | [] => .error (.ended .value)
  | c :: rest =>
    have : rest.length < cs.length := length_lt_of_dropBlank h
    if c = '[' then do
      let ⟨last, h'⟩ ← skipParts (.list :: outer) false rest
      .ok ⟨last, by omega⟩
    else if c = '{' then do
      let ⟨last, h'⟩ ← skipParts (.object :: outer) false rest
      .ok ⟨last, by omega⟩
    else do
      let ⟨rest', h'⟩ ← skipSimple c rest
      let ⟨last, h''⟩ ← skipParts outer true rest'
      .ok ⟨last, by omega⟩
termination_by 2 * cs.length

/-- Passes over the rest of what encloses a place, behind a part of it or at its start. -/
def skipParts (outer : List Enclosing) (behind : Bool) (cs : List Char) :
    Except Fault (OptionalRest cs) :=
  match outer with
  | [] => .ok (.all cs)
  | e :: above =>
    match h : dropBlank cs with
    | [] => .error e.ended
    | c :: rest =>
      have : rest.length < cs.length := length_lt_of_dropBlank h
      if behind ∧ c = ',' then do
        let ⟨rest', h'⟩ ← skipLabel e rest
        let ⟨last, h''⟩ ← skipValue (e :: above) rest'
        .ok ⟨last, by omega⟩
      else if c = e.bracket then do
        let ⟨last, h'⟩ ← skipParts above true rest
        .ok ⟨last, by omega⟩
      else if behind then .error e.noPart
      else do
        have : (c :: rest).length = rest.length + 1 := rfl
        let ⟨rest', h'⟩ ← skipLabel e (c :: rest)
        let ⟨last, h''⟩ ← skipValue (e :: above) rest'
        .ok ⟨last, by omega⟩
termination_by 2 * cs.length + 1

end

end FeatureDepot.Json
