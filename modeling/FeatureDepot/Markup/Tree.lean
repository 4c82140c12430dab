import FeatureDepot.Markup.Namespace
import FeatureDepot.Markup.Token

/-! The tree of a document. A text that breaks off or whose tags do not match still has a tree, in
which the elements that were open at that point are marked; only a reader that gets there fails. -/
namespace FeatureDepot.Markup

/-- How an element ends: with its tag, or open, because of a fault or at the end of the text. -/
inductive Ending
  | closed
  | cut (fault : Option Fault)
  deriving DecidableEq, Repr

/-- The fault of a text that ends within the element of a name. -/
def missingEnd (name : List Char) (fault : Option Fault) : Fault :=
  fault.getD (.form (.missingEnd (String.ofList name)))

/-- Reads the end of an element; the name is that of the element that is missed in an open one. -/
def Ending.check (name : List Char) : Ending → Except Fault Unit
  | closed => .ok ()
  | cut fault => .error (missingEnd name fault)

/-- A piece of text with its references replaced, or an element. -/
inductive Node
  | text (content : Except ReferenceFault (List Char))
  | element (tag : Tag) (children : List Node) (ending : Ending)

/-- The nodes of a text outside of any element, and the fault that ended it. -/
structure Document where
  nodes : List Node
  fault : Option Fault

/-- An element whose end was not yet read, with its children so far, last one first. -/
structure OpenElement where
  tag : Tag
  children : List Node

/-- The state of a tree under construction: the open elements, innermost first, the nodes outside of
them, last one first, and whether the next piece of text continues the last one. -/
structure Growth where
  elements : List OpenElement
  outside : List Node
  continued : Bool

namespace Growth

/-- The bindings in force at the end of the text read so far. -/
def scope (g : Growth) : Scope :=
  match g.elements with
  | e :: _ => e.tag.scope
  | [] => []

/-- Changes the list of nodes that grows. -/
def update (g : Growth) (change : List Node → List Node) (continued : Bool) : Growth :=
  match g.elements with
  | e :: above =>
    { g with elements := { e with children := change e.children } :: above, continued }
  | [] => { g with outside := change g.outside, continued }

/-- Adds a piece of text, to the last one if it continues it. -/
def addText (g : Growth) (content : Except ReferenceFault (List Char)) : Growth :=
  g.update (fun nodes =>
    match g.continued, nodes with
    | true, .text before :: nodes => .text (do return (← before) ++ (← content)) :: nodes
    | _, nodes => .text content :: nodes) true

/-- Ends the innermost open element. -/
def close (g : Growth) (ending : Ending) : Growth :=
  match g.elements with
  | [] => g
  | e :: above =>
    { g with elements := above }.update (.element e.tag e.children.reverse ending :: ·) false

/-- Adds a token. -/
def add (g : Growth) (token : Token) : Except Fault Growth :=
  match token with
  | .opening content =>
    .ok { g with elements := ⟨.ofContent g.scope content, []⟩ :: g.elements, continued := false }
  | .emptyElement content =>
    .ok (g.update (.element (.ofContent g.scope content) [] .closed :: ·) false)
  | .closing name =>
    match g.elements with
    | [] => .error (.form (.unmatchedEnd (String.ofList name)))
    | e :: _ =>
      if name = e.tag.name then .ok (g.close .closed)
      else .error (.form (.mismatchedEnd (String.ofList e.tag.name) (String.ofList name)))
  | .doctype => .ok { g with continued := false }
  | .text cs => .ok (g.addText (.ok (unifyLineEnds cs)))
  | .literal cs => .ok (g.addText (.ok (unifyLineEnds cs)))
  | .reference name => .ok (g.addText ((resolve 0 name).map ([·])))

/-- Adds tokens up to the first one that does not fit. -/
def addAll (g : Growth) (last : Option Fault) : List Token → Growth × Option Fault
  | [] => (g, last)
  | token :: tokens =>
    match g.add token with
    | .ok g => g.addAll last tokens
    | .error fault => (g, some fault)

/-- Leaves all open elements as they are. -/
def finish (fault : Option Fault) (g : Growth) : Document :=
  ⟨(g.elements.foldl (fun g _ => g.close (.cut fault)) g).outside.reverse, fault⟩

end Growth

/-- The tree of a text. -/
def Document.ofText (cs : List Char) : Document :=
  let (tokens, fault) := Token.scanDocument cs
  let (g, fault) := Growth.addAll ⟨[], [], false⟩ fault tokens
  g.finish fault

end FeatureDepot.Markup
