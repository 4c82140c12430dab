import FeatureDepot.Decimal.Shortest
import FeatureDepot.Text.Quoted

/-! What can be wrong with a JSON text: it ends too early, it breaks the grammar, or it holds a
value that the reader has no use for. -/
namespace FeatureDepot.Json

/-- The part of a text that its end breaks off. -/
inductive EndFault
  | value
  | list
  | object
  | text
  deriving DecidableEq, Repr

/-- A breach of the grammar. -/
inductive SyntaxFault
  | noValue
  | noWord
  | noColon
  | noListPart
  | noObjectPart
  | noKey
  | trailingComma
  | trailingText
  | controlCharacter
  | invalidEscape
  | loneSurrogate
  | brokenSurrogate
  | invalidNumber
  | numberOutOfRange
  deriving DecidableEq, Repr

/-- A value in a place where another kind of value is read. Lists and objects are not looked
into. -/
inductive Found
  | null
  | bool (value : Bool)
  | integer (value : Int)
  | float (value : List Char)
  | text (content : List Char)
  | list
  | object
  deriving DecidableEq, Repr

/-- A value that is not the one that is read. -/
inductive DataFault
  | wrongType (found : Found) (expected : String)
  | missingField (key : String)
  | duplicateField (key : String)
  | wrongLength (length : Nat) (expected : String)
  deriving DecidableEq, Repr

inductive Fault
  | ended (fault : EndFault)
  | syntaxFault (fault : SyntaxFault)
  | data (fault : DataFault)
  deriving DecidableEq, Repr

def EndFault.message : EndFault → String
  | value => "EOF while parsing a value"
  | list => "EOF while parsing a list"
  | object => "EOF while parsing an object"
  | text => "EOF while parsing a string"

def SyntaxFault.message : SyntaxFault → String
  | noValue => "expected value"
  | noWord => "expected ident"
  | noColon => "expected `:`"
  | noListPart => "expected `,` or `]`"
  | noObjectPart => "expected `,` or `\x7d`"
  | noKey => "key must be a string"
  | trailingComma => "trailing comma"
  | trailingText => "trailing characters"
  | controlCharacter => "control character (\\u0000-\\u001F) found while parsing a string"
  | invalidEscape => "invalid escape"
  | loneSurrogate => "lone leading surrogate in hex escape"
  | brokenSurrogate => "unexpected end of hex escape"
  | invalidNumber => "invalid number"
  | numberOutOfRange => "number out of range"

/-- A value as a message names it. -/
def Found.describe : Found → String
  | null => "null"
  | bool value => "boolean `" ++ (if value then "true" else "false") ++ "`"
  | integer value => "integer `" ++ toString value ++ "`"
  | float value => "floating point `" ++ String.ofList value ++ "`"
  | text content => "string " ++ String.ofList (Text.quoted content)
  | list => "sequence"
  | object => "map"

def DataFault.message : DataFault → String
  | wrongType found expected => "invalid type: " ++ found.describe ++ ", expected " ++ expected
  | missingField key => "missing field `" ++ key ++ "`"
  | duplicateField key => "duplicate field `" ++ key ++ "`"
  | wrongLength length expected => "invalid length " ++ toString length ++ ", expected " ++ expected

def Fault.message : Fault → String
  | ended fault => fault.message
  | syntaxFault fault => fault.message
  | data fault => fault.message

end FeatureDepot.Json
