import FeatureDepot.Markup.Attribute

/-! Namespaces: which names the prefixes of a tag are bound to, and the attribute that declares an
element to have no value. -/
namespace FeatureDepot.Markup

open Text

/-- Prefixes with the namespaces that they are bound to, the innermost binding first. -/
abbrev Scope := List (List Char × List Char)

namespace Scope

/-- The namespace of the prefix `xml`. -/
def xmlName : List Char := "http://www.w3.org/XML/1998/namespace".toList

/-- The namespace of the prefix `xmlns`. -/
def xmlnsName : List Char := "http://www.w3.org/2000/xmlns/".toList

/-- The namespace of the attribute that declares a value to be absent. -/
def instanceName : List Char := "http://www.w3.org/2001/XMLSchema-instance".toList

/-- The prefix that an attribute binds. -/
def bound? (a : Attribute) : Option (List Char) := "xmlns:".toList.isPrefixOf? a.name

/-- Adds the binding of an attribute, if it is one. -/
def bind (scope : Scope) (a : Attribute) : Except NamespaceFault Scope :=
  match bound? a with
  | none => .ok scope
  | some pre =>
    if pre = "xml".toList then if a.value = xmlName then .ok scope
      else .error (.xmlPrefixBound a.value)
    else if pre = "xmlns".toList then .error (.xmlnsPrefixBound a.value)
    else if a.value = xmlName then .error (.boundToXml pre)
    else if a.value = xmlnsName then .error (.boundToXmlns pre)
    else .ok ((pre, a.value) :: scope)

/-- Adds the bindings of attributes up to the first one that is not allowed. -/
def bindAll (scope : Scope) : List Attribute → Scope × Option NamespaceFault
  | [] => (scope, none)
  | a :: as =>
    match scope.bind a with
    | .ok scope => scope.bindAll as
    | .error fault => (scope, some fault)

/-- Whether an attribute declares its element to have no value. -/
def isNil (scope : Scope) (a : Attribute) : Bool :=
  localName a.name == "nil".toList &&
  (prefix? a.name).any (fun pre => scope.lookup pre == some instanceName) &&
  (a.value == "1".toList || a.value == "true".toList)

end Scope

/-- What an opening tag says: its name, its attributes up to the first fault in them, and the
bindings in force in its element. -/
structure Tag where
  name : List Char
  attributes : List Attribute
  fault : Option AttributeFault
  scope : Scope
  bindingFault : Option NamespaceFault
  deriving Repr

namespace Tag

/-- The tag with a given content inside of a scope. -/
def ofContent (scope : Scope) (content : List Char) : Tag :=
  let name := content.takeWhile (!isBlank ·)
  let rest := content.dropWhile (!isBlank ·)
  let (attributes, fault) := Attribute.scan (size name) true rest
  let (scope, bindingFault) := scope.bindAll (Attribute.scan (size name) false rest).1
  { name, attributes, fault, scope, bindingFault }

/-- Whether the tag declares, by bindings of a given scope, that its element has no value. -/
def isNil (tag : Tag) (scope : Scope) : Bool := tag.attributes.any scope.isNil

/-- A binding that is not allowed makes the tag unreadable. -/
def check (tag : Tag) : Except Fault Unit :=
  match tag.bindingFault with
  | some fault => .error (.binding fault)
  | none => .ok ()

end Tag
end FeatureDepot.Markup
