import FeatureDepot.Markup.Reference
import FeatureDepot.Text.Quoted

/-! What can be wrong with a markup document: its letters, its tags, an attribute, a reference, a
namespace, or the record that is read from it. -/
namespace FeatureDepot.Markup

/-- A markup construct without its end, or none at all. -/
inductive SyntaxFault
  | unknownMarkup
  | unclosedInstruction
  | unclosedDeclaration
  | unclosedComment
  | unclosedDoctype
  | unclosedLiteral
  | unclosedTag
  | unclosedValue (quote : Char)
  deriving DecidableEq, Repr

/-- Tags that do not match, or a construct without a part that it needs. -/
inductive FormFault
  | unmatchedEnd (name : String)
  | mismatchedEnd (expected found : String)
  | missingEnd (name : String)
  | missingDoctypeName
  | unclosedReference
  deriving DecidableEq, Repr

/-- What is wrong with the attributes of a tag. Positions count bytes from the start of its name. -/
inductive AttributeFault
  | noEquals (position : Nat)
  | noValue (position : Nat)
  | unquoted (position : Nat)
  | noClosingQuote (position : Nat) (quote : Char)
  | duplicate (position previous : Nat)
  deriving DecidableEq, Repr

/-- A binding of a reserved namespace prefix or to a reserved namespace. -/
inductive NamespaceFault
  | xmlPrefixBound (namespaceName : List Char)
  | xmlnsPrefixBound (namespaceName : List Char)
  | boundToXml (pre : List Char)
  | boundToXmlns (pre : List Char)
  deriving DecidableEq, Repr

inductive Fault
  | syntaxFault (fault : SyntaxFault)
  | form (fault : FormFault)
  | attributes (fault : AttributeFault)
  | reference (fault : ReferenceFault)
  | binding (fault : NamespaceFault)
  | unexpectedElement (name : List Char)
  | noElement
  | missingField (key : String)
  | duplicateField (key : String)
  | wrongType (found : List Char) (expected : String)
  deriving DecidableEq, Repr

def SyntaxFault.message : SyntaxFault → String
  | unknownMarkup => "unknown or missed symbol in markup"
  | unclosedInstruction => "processing instruction not closed: `?>` not found before end of input"
  | unclosedDeclaration => "XML declaration not closed: `?>` not found before end of input"
  | unclosedComment => "comment not closed: `-->` not found before end of input"
  | unclosedDoctype => "DOCTYPE not closed: `>` not found before end of input"
  | unclosedLiteral => "CDATA not closed: `]]>` not found before end of input"
  | unclosedTag => "tag not closed: `>` not found before end of input"
  | unclosedValue quote =>
    "attribute value not closed: `" ++ quote.toString ++ "` not found before end of input"

def FormFault.message : FormFault → String
  | unmatchedEnd name => "close tag `</" ++ name ++ ">` does not match any open tag"
  | mismatchedEnd expected found =>
    "expected `</" ++ expected ++ ">`, but `</" ++ found ++ ">` was found"
  | missingEnd name => "start tag not closed: `</" ++ name ++ ">` not found before end of input"
  | missingDoctypeName => "`<!DOCTYPE>` declaration does not contain a name of a document type"
  | unclosedReference =>
    "entity or character reference not closed: `;` not found before end of input"

def AttributeFault.message : AttributeFault → String
  | noEquals position =>
    "position " ++ toString position ++ ": attribute key must be directly followed by `=` or space"
  | noValue position =>
    "position " ++ toString position ++ ": `=` must be followed by an attribute value"
  | unquoted position =>
    "position " ++ toString position ++ ": attribute value must be enclosed in `\"` or `'`"
  | noClosingQuote position quote =>
    "position " ++ toString position ++ ": missing closing quote `" ++ quote.toString ++
      "` in attribute value"
  | duplicate position previous =>
    "position " ++ toString position ++
      ": duplicated attribute, previous declaration at position " ++
      toString previous

/-- A name as bytes between quotes: visible ASCII characters stand for themselves, other bytes are
written in hexadecimal. -/
def byteText (cs : List Char) : String :=
  let byte (b : UInt8) : List Char :=
    if b = 0x22 then ['\\', '"']
    else if 0x20 ≤ b ∧ b < 0x7F then [Char.ofNat b.toNat]
    else '0' :: 'x' :: (Nat.toDigits 16 b.toNat).map Char.toUpper
  "\"" ++ String.ofList ((String.ofList cs).toUTF8.data.toList.flatMap byte) ++ "\""

def NamespaceFault.message : NamespaceFault → String
  | xmlPrefixBound n => "the namespace prefix 'xml' cannot be bound to '" ++ byteText n ++ "'"
  | xmlnsPrefixBound n => "the namespace prefix 'xmlns' cannot be bound to '" ++ byteText n ++ "'"
  | boundToXml p =>
    "the namespace prefix '" ++ byteText p ++
      "' cannot be bound to 'http://www.w3.org/XML/1998/namespace'"
  | boundToXmlns p =>
    "the namespace prefix '" ++ byteText p ++ "' cannot be bound to 'http://www.w3.org/2000/xmlns/'"

def Fault.message : Fault → String
  | syntaxFault fault => "syntax error: " ++ fault.message
  | form fault => "ill-formed document: " ++ fault.message
  | attributes fault => "error while parsing attribute: " ++ fault.message
  | reference fault => fault.message
  | binding fault => fault.message
  | unexpectedElement name => "unexpected `Event::Start(" ++ byteText name ++ ")`"
  | noElement => "unexpected `Event::Eof`"
  | missingField key => "missing field `" ++ key ++ "`"
  | duplicateField key => "duplicate field `" ++ key ++ "`"
  | wrongType found expected =>
    "invalid type: string " ++ String.ofList (Text.quoted found) ++ ", expected " ++ expected

end FeatureDepot.Markup
