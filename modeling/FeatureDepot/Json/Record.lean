import FeatureDepot.Json.Skip

/-! Reading values of known types from a JSON text. A record is an object with the keys of its
fields, in any order and with others between them, or a list of its fields in order. -/
namespace FeatureDepot.Json

/-- Describes the value that starts with a character, if it can be read that far. -/
def describe (c : Char) (cs : List Char) : Except Fault Found :=
  match c with
  | 'n' => (readWord "ull".toList cs).map fun _ => .null
  | 't' => (readWord "rue".toList cs).map fun _ => .bool true
  | 'f' => (readWord "alse".toList cs).map fun _ => .bool false
  | '"' => (readQuoted readNumbered cs).map fun (content, _) => .text content
  | '[' => .ok .list
  | '{' => .ok .object
  | '-' => do (← readNumberText (.ended .value) cs).1.found true
  | c => do
    if !c.isDigit then .error (.syntaxFault .noValue)
    (← readNumberText (.ended .value) (c :: cs)).1.found false

/-- The fault of a value that is not of the expected type. -/
def refuse (expected : String) (c : Char) (cs : List Char) : Fault :=
  match describe c cs with
  | .ok found => .data (.wrongType found expected)
  | .error fault => fault

/-- Reads a value by its first character and the text behind it. -/
def readValue {α : Type}
    (read : (c : Char) → (rest : List Char) → Except Fault (α × OptionalRest rest)) :
    Reader α := fun cs =>
  match h : dropBlank cs with
  | [] => .error (.ended .value)
  | c :: rest => do
    let (a, ⟨rest', h'⟩) ← read c rest
    .ok (a, ⟨rest', Nat.lt_of_le_of_lt h' (length_lt_of_dropBlank h)⟩)

/-- Reads a text. -/
def readText (expected : String) : Reader String := readValue fun c rest =>
  if c = '"' then do
    let (content, rest') ← readQuoted readNumbered rest
    .ok (String.ofList content, rest'.optional)
  else .error (refuse expected c rest)

/-- Reads a truth value. -/
def readBool : Reader Bool := readValue fun c rest =>
  match c with
  | 't' => (readWord "rue".toList rest).map (true, ·)
  | 'f' => (readWord "alse".toList rest).map (false, ·)
  | c => .error (refuse "a boolean" c rest)

/-- Looks for the next item of a list: whether there is one, and where it or the closing bracket
is. -/
def seekItem (first : Bool) (cs : List Char) : Except Fault (Bool × OptionalRest cs) :=
  match h : dropBlank cs with
  | [] => .error (.ended .list)
  | c :: rest =>
    have h₁ : rest.length + 1 ≤ cs.length := by simpa [h] using length_dropBlank cs
    if c = ']' then .ok (false, ⟨c :: rest, h₁⟩)
    else if first then .ok (true, ⟨c :: rest, h₁⟩)
    else if c = ',' then
      match h' : dropBlank rest with
      | [] => .error (.ended .value)
      | d :: rest' =>
        have h₂ : rest'.length + 1 ≤ rest.length := by simpa [h'] using length_dropBlank rest
        if d = ']' then .error (.syntaxFault .trailingComma)
          else .ok (true, ⟨d :: rest', by simp; omega⟩)
    else .error (.syntaxFault .noListPart)

/-- Reads the items of a list and its closing bracket. -/
def readItems {α : Type} (item : Reader α) (first : Bool) (cs : List Char) :
    Except Fault (List α × OptionalRest cs) := do
  let (more, ⟨rest, h⟩) ← seekItem first cs
  if more then
    let (a, ⟨rest', h'⟩) ← item rest
    let (as, ⟨rest'', h''⟩) ← readItems item false rest'
    .ok (a :: as, ⟨rest'', by omega⟩)
  else .ok ([], ⟨rest.drop 1, by simp; omega⟩)
termination_by cs.length

/-- Reads a list. -/
def readList {α : Type} (item : Reader α) : Reader (List α) := readValue fun c rest =>
  if c = '[' then readItems item true rest else .error (refuse "a sequence" c rest)

/-- A field of a record under construction: its key, whether it must be there, and how its value
changes the record. -/
structure Field (σ : Type) : Type where
  key : String
  required : Bool
  read : Reader (σ → σ)

namespace Field

variable {σ τ : Type}

/-- A field that may be missing. -/
def optional (key : String) (read : Reader τ) (set : τ → σ → σ) : Field σ :=
  ⟨key, false, fun cs => (read cs).map fun (v, rest) => (set v, rest)⟩

/-- A field that must be there. -/
def needed (key : String) (read : Reader τ) (set : τ → σ → σ) : Field σ :=
  ⟨key, true, fun cs => (read cs).map fun (v, rest) => (set v, rest)⟩

end Field

/-- A kind of record, with its fields in order. -/
structure Schema (σ : Type) : Type where
  name : String
  fields : List (Field σ)

namespace Schema

variable {σ : Type}

/-- Reads the closing bracket behind the last field. -/
def endList (cs : List Char) : Except Fault (OptionalRest cs) :=
  match h : dropBlank cs with
  | [] => .error (.ended .list)
  | c :: rest =>
    have h₁ : rest.length + 1 ≤ cs.length := by simpa [h] using length_dropBlank cs
    if c = ']' then .ok ⟨rest, by omega⟩
    else if c = ',' ∧ (dropBlank rest).head? = some ']' then .error (.syntaxFault .trailingComma)
    else .error (.syntaxFault .trailingText)

/-- Reads fields in order. The list may end before a field that need not be there. -/
def readInOrder (s : Schema σ) (first : Bool) (value : σ) (fields : List (Field σ))
    (cs : List Char) :
    Except Fault (σ × OptionalRest cs) :=
  match fields with
  | [] => (endList cs).map (value, ·)
  | f :: fields => do
    let (more, ⟨rest, h⟩) ← seekItem first cs
    if more then
      let (change, ⟨rest', h'⟩) ← f.read rest
      let (value, ⟨rest'', h''⟩) ← s.readInOrder false (change value) fields rest'
      .ok (value, ⟨rest'', by omega⟩)
    else
      match (f :: fields).findIdx? Field.required with
      | some i =>
        .error (.data (.wrongLength (s.fields.length - (fields.length + 1) + i)
          ("struct " ++ s.name ++ " with " ++ toString s.fields.length ++ " elements")))
      | none => .ok (value, ⟨rest.drop 1, by simp; omega⟩)

/-- Looks for the next key of an object: whether there is one, and where it starts behind its quote
or where the closing brace is. -/
def seekKey (first : Bool) (cs : List Char) : Except Fault (Bool × OptionalRest cs) :=
  match h : dropBlank cs with
  | [] => .error (.ended .object)
  | c :: rest =>
    have h₁ : rest.length + 1 ≤ cs.length := by simpa [h] using length_dropBlank cs
    if c = '}' then .ok (false, ⟨c :: rest, h₁⟩)
    else if first then
      if c = '"' then .ok (true, ⟨rest, by omega⟩) else .error (.syntaxFault .noKey)
    else if c = ',' then
      match h' : dropBlank rest with
      | [] => .error (.ended .value)
      | d :: rest' =>
        have h₂ : rest'.length + 1 ≤ rest.length := by simpa [h'] using length_dropBlank rest
        if d = '"' then .ok (true, ⟨rest', by omega⟩)
        else if d = '}' then .error (.syntaxFault .trailingComma)
        else .error (.syntaxFault .noKey)
    else .error (.syntaxFault .noObjectPart)

/-- Reads keys with their values up to the closing brace. -/
def readKeyed (s : Schema σ) (seen : List String) (first : Bool) (value : σ) (cs : List Char) :
    Except Fault (σ × OptionalRest cs) := do
  let (more, ⟨rest, h⟩) ← seekKey first cs
  if !more then
    match s.fields.find? fun f => f.required && !seen.contains f.key with
    | some f => .error (.data (.missingField f.key))
    | none => .ok (value, ⟨rest.drop 1, by simp; omega⟩)
  else
    let (key, ⟨rest, h₁⟩) ← readQuoted readNumbered rest
    let key := String.ofList key
    match s.fields.find? (·.key == key) with
    | none =>
      let ⟨rest, h₂⟩ ← readColon rest
      let ⟨rest, h₃⟩ ← skipValue [] rest
      let (value, ⟨rest, h₄⟩) ← s.readKeyed seen false value rest
      .ok (value, ⟨rest, by omega⟩)
    | some f =>
      if seen.contains key then .error (.data (.duplicateField key))
      let ⟨rest, h₂⟩ ← readColon rest
      let (change, ⟨rest, h₃⟩) ← f.read rest
      let (value, ⟨rest, h₄⟩) ← s.readKeyed (key :: seen) false (change value) rest
      .ok (value, ⟨rest, by omega⟩)
termination_by cs.length

/-- Reads a record. -/
def read (s : Schema σ) (start : σ) : Reader σ := readValue fun c rest =>
  if c = '[' then s.readInOrder true start s.fields rest
  else if c = '{' then s.readKeyed [] true start rest
  else .error (refuse ("struct " ++ s.name) c rest)

end Schema

/-- Reads a text that holds one value. -/
def parse {α : Type} (read : Reader α) (text : String) : Except Fault α := do
  let (value, rest) ← read text.toList
  if (dropBlank rest).isEmpty then .ok value else .error (.syntaxFault .trailingText)

end FeatureDepot.Json
