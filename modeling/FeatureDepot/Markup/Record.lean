import FeatureDepot.Markup.Tree
import FeatureDepot.Text.Digit

/-! Reading records from elements. A record has fields under keys: an attribute has the key of its
name behind an at sign, a child element has the key of its name, and text has the key `$text`. A key
that is not known is passed over; the fields of a record come in any order. -/
namespace FeatureDepot.Markup

open Text

/-- The key of text between the child elements. -/
def textKey : List Char := "$text".toList

/-- The key of an attribute. A prefix is dropped, except from those that XML itself defines. -/
def attributeKey (name : List Char) : List Char :=
  let reserved := name == "xmlns".toList || "xmlns:".toList.isPrefixOf name ||
    "xml:".toList.isPrefixOf name
  '@' :: if reserved then name else localName name

/-- Where the value of a field is read from: the value of an attribute, text, or an element, which
comes with the tag of its parent. -/
inductive Source
  | value (raw : List Char)
  | text (content : List Char)
  | element (parent tag : Tag) (children : List Node) (ending : Ending)

/-- Resolves references to text. -/
def resolved (content : Except ReferenceFault (List Char)) : Except Fault (List Char) :=
  content.mapError .reference

/-- Reads what follows the text of an element: nothing but its end. -/
def readTextEnd (tag : Tag) (ending : Ending) : List Node → Except Fault Unit
  | [] => ending.check tag.name
  | .text content :: rest => do
    let _ ← resolved content
    readTextEnd tag ending rest
  | .element inner _ _ :: _ => do
    inner.check
    .error (.unexpectedElement inner.name)

/-- Reads an element that holds text only. -/
def readText (tag : Tag) (children : List Node) (ending : Ending) : Except Fault (List Char) := do
  match children with
  | .text content :: rest =>
    let content ← resolved content
    readTextEnd tag ending rest
    .ok content
  | children =>
    readTextEnd tag ending children
    .ok []

/-- Passes over an element without looking into it, but for the tag that may follow its own at
once. -/
def pass (tag : Tag) (children : List Node) (ending : Ending) : Except Fault Unit := do
  match children with
  | .element inner _ _ :: _ => inner.check
  | _ => .ok ()
  ending.check tag.name

mutual

/-- Reads a node of a parent of the given name over, to come back to it later: its references and
bindings are checked, and that it does not break off. -/
def touch (parent : List Char) : Node → Except Fault Unit
  | .text content => do
    let _ ← resolved content
    .ok ()
  | .element tag children ending => do
    tag.check
    touchAll parent children
    ending.check parent

/-- Reads nodes over. -/
def touchAll (parent : List Char) : List Node → Except Fault Unit
  | [] => .ok ()
  | node :: nodes => do
    touch parent node
    touchAll parent nodes

end

/-- How the values of a field change a record: there can be one of them, or a list of elements. -/
inductive Field (σ : Type) : Type
  | single (read : Source → Except Fault (σ → σ))
  | list (read : (parent tag : Tag) → List Node → Ending → Except Fault (σ → σ))

/-- A kind of record: its fields by their keys, and the keys that must be there. -/
structure Schema (σ : Type) : Type where
  field? : List Char → Option (Field σ)
  required : List String

namespace Schema

variable {σ : Type}

/-- A record under construction, with the keys that were read so far. -/
structure Progress (σ : Type) : Type where
  value : σ
  seen : List (List Char)

/-- Reads a field that occurs once. -/
def readSingle (p : Progress σ) (key : List Char) (read : Except Fault (σ → σ)) :
    Except Fault (Progress σ) := do
  if p.seen.contains key then .error (.duplicateField (String.ofList key))
  let change ← read
  .ok ⟨change p.value, key :: p.seen⟩

/-- Reads the attributes of a tag. -/
def readAttributes (s : Schema σ) (fault : Option AttributeFault) (p : Progress σ) :
    List Attribute → Except Fault (Progress σ)
  | [] => match fault with
    | some fault => .error (.attributes fault)
    | none => .ok p
  | a :: as =>
    match s.field? (attributeKey a.name) with
    | some (.single read) => do
      let p ← readSingle p (attributeKey a.name) (read (.value a.value))
      s.readAttributes fault p as
    | _ => s.readAttributes fault p as

/-- Reads the elements of a list: those among the remaining children that have the same name, prefix
included. The others are left. -/
def gather (parent : Tag) (name : List Char)
    (read : (tag : Tag) → List Node → Ending → Except Fault (σ → σ)) (value : σ) :
    List Node → Except Fault (σ × List Node)
  | [] => .ok (value, [])
  | .element tag children ending :: rest =>
    if tag.name = name then do
      tag.check
      let change ← read tag children ending
      gather parent name read (change value) rest
    else do
      touch parent.name (.element tag children ending)
      let (value, left) ← gather parent name read value rest
      .ok (value, .element tag children ending :: left)
  | .text content :: rest => do
    touch parent.name (.text content)
    let (value, left) ← gather parent name read value rest
    .ok (value, .text content :: left)

theorem length_gather {parent : Tag} {name : List Char}
    {read : (tag : Tag) → List Node → Ending → Except Fault (σ → σ)} {value value' : σ}
    {nodes left : List Node} (h : gather parent name read value nodes = .ok (value', left)) :
    left.length ≤ nodes.length := by
  induction nodes generalizing value value' left with
  | nil => simp_all [gather]
  | cons node nodes ih =>
    cases node with
    | text content =>
      simp only [gather, bind, Except.bind] at h
      split at h
      · cases h
      · split at h
        · cases h
        · next p e =>
          obtain ⟨rfl, rfl⟩ := Prod.mk.injEq .. ▸ Except.ok.inj h
          simpa using ih e
    | element tag children ending =>
      simp only [gather, bind, Except.bind] at h
      split at h
      · split at h
        · cases h
        · split at h
          · cases h
          · exact Nat.le_succ_of_le (ih h)
      · split at h
        · cases h
        · split at h
          · cases h
          · next p e =>
            obtain ⟨rfl, rfl⟩ := Prod.mk.injEq .. ▸ Except.ok.inj h
            simpa using ih e

/-- Reads the children of an element. Text that is white space has no meaning between them. -/
def readChildren (s : Schema σ) (parent : Tag) (ending : Ending) (p : Progress σ)
    (nodes : List Node) :
    Except Fault (Progress σ) :=
  match nodes with
  | [] => do
    ending.check parent.name
    .ok p
  | .text content :: rest => do
    let content ← resolved content
    if content.all isBlank then s.readChildren parent ending p rest
    else
      match s.field? textKey with
      | some (.single read) =>
        let p ← readSingle p textKey (read (.text content))
        s.readChildren parent ending p rest
      | _ => s.readChildren parent ending p rest
  | .element tag children inner :: rest => do
    tag.check
    let key := localName tag.name
    match s.field? key with
    | none =>
      pass tag children inner
      s.readChildren parent ending p rest
    | some (.single read) =>
      let p ← readSingle p key (read (.element parent tag children inner))
      s.readChildren parent ending p rest
    | some (.list read) =>
      if p.seen.contains key then .error (.duplicateField (String.ofList key))
      let change ← read parent tag children inner
      match h : gather parent tag.name (read parent) (change p.value) rest with
      | .error fault => .error fault
      | .ok (value, left) =>
        have := length_gather h
        ending.check parent.name
        s.readChildren parent ending ⟨value, key :: p.seen⟩ left
termination_by nodes.length

/-- Reads a record from an element. -/
def read (s : Schema σ) (start : σ) (tag : Tag) (children : List Node) (ending : Ending) :
    Except Fault σ := do
  let p ← s.readAttributes tag.fault ⟨start, []⟩ tag.attributes
  let p ← s.readChildren tag ending p children
  match s.required.find? fun key => !p.seen.contains key.toList with
  | some key => .error (.missingField key)
  | none => .ok p.value

/-- Reads a record from the first element of a document, whatever its name is. -/
def readRoot (s : Schema σ) (start : σ) (expected : String) (fault : Option Fault) :
    List Node → Except Fault σ
  | [] => .error (fault.getD .noElement)
  | .text content :: rest => do
    let content ← resolved content
    if content.all isBlank then s.readRoot start expected fault rest
    else .error (.wrongType content expected)
  | .element tag children ending :: _ => do
    tag.check
    s.read start tag children ending

end Schema

namespace Source

/-- The text of a value. -/
def text? : Source → Except Fault (List Char)
  | value raw => resolved (unescape raw)
  | text content => .ok content
  | element _ tag children ending => readText tag children ending

/-- A value that its element, or the one around it, declares to be absent. -/
def isAbsent : Source → Bool
  | element parent tag .. => parent.isNil tag.scope || tag.isNil tag.scope
  | _ => false

/-- Passes over a value. -/
def pass : Source → Except Fault Unit
  | element _ tag children ending => Markup.pass tag children ending
  | _ => .ok ()

/-- Reads the value of a type whose values are words; white space around them does not count. -/
def word {α : Type} (parse? : List Char → Option α) (expected : String) (source : Source) :
    Except Fault α := do
  let content ← source.text?
  match parse? (trimBlank content) with
  | some a => .ok a
  | none => .error (.wrongType content expected)

/-- Reads a record. -/
def record {τ : Type} (schema : Schema τ) (start : τ) (expected : String) (source : Source) :
    Except Fault τ := do
  match source with
  | element _ tag children ending => schema.read start tag children ending
  | source => .error (.wrongType (← source.text?) expected)

end Source

/-- The words for truth values. -/
def bool? (cs : List Char) : Option Bool :=
  if cs = "true".toList ∨ cs = "1".toList then some true
  else if cs = "false".toList ∨ cs = "0".toList then some false
  else none

/-- A number of 32 bits, with a plus sign or without. -/
def word32? (cs : List Char) : Option UInt32 :=
  match cs with
  | '+' :: digits => Text.word? digits
  | digits => Text.word? digits

namespace Source

def string (source : Source) : Except Fault String := return String.ofList (← source.text?)

def bool (source : Source) : Except Fault Bool := source.word bool? "a boolean"

def word32 (source : Source) : Except Fault UInt32 := source.word word32? "u32"

end Source

namespace Field

variable {σ τ : Type}

/-- A field with a value. -/
def value (read : Source → Except Fault τ) (set : τ → σ → σ) : Field σ :=
  .single fun source => return set (← read source)

/-- A field whose value can be declared to be absent. -/
def optional (read : Source → Except Fault τ) (set : Option τ → σ → σ) : Field σ :=
  .single fun source => do
    if source.isAbsent then
      source.pass
      return set none
    else return set (some (← read source))

/-- A field of any number of elements. -/
def many (read : Source → Except Fault τ) (add : τ → σ → σ) : Field σ :=
  .list fun parent tag children ending => return add (← read (.element parent tag children ending))

end Field
end FeatureDepot.Markup
