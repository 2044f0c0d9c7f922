import ShaderScript.Json.Value
import ShaderScript.Decimal.Shortest
import ShaderScript.Text.Quoted

/-!
# Why a JSON text is refused

A text is refused because it is not JSON (`Fault`), or because it is JSON of another shape than the
one asked for (`Mismatch`). Either way the refusal is reported at a place in the text.
-/

namespace ShaderScript.Json

/-- What is wrong with a text that is not JSON. -/
inductive Fault where
  | endInValue
  | endInList
  | endInObject
  | endInString
  | expectedColon
  | expectedCommaInList
  | expectedCommaInObject
  | expectedWord
  | expectedValue
  | invalidEscape
  | invalidNumber
  | numberOutOfRange
  | controlCharacter
  | keyNotString
  | loneSurrogate
  | brokenSurrogate
  | trailingComma
  | trailingCharacters
  | tooDeep
deriving DecidableEq

namespace Fault

def message : Fault → String
  | endInValue => "EOF while parsing a value"
  | endInList => "EOF while parsing a list"
  | endInObject => "EOF while parsing an object"
  | endInString => "EOF while parsing a string"
  | expectedColon => "expected `:`"
  | expectedCommaInList => "expected `,` or `]`"
  | expectedCommaInObject => "expected `,` or `\x7d`"
  | expectedWord => "expected ident"
  | expectedValue => "expected value"
  | invalidEscape => "invalid escape"
  | invalidNumber => "invalid number"
  | numberOutOfRange => "number out of range"
  | controlCharacter => "control character (\\u0000-\\u001F) found while parsing a string"
  | keyNotString => "key must be a string"
  | loneSurrogate => "lone leading surrogate in hex escape"
  | brokenSurrogate => "unexpected end of hex escape"
  | trailingComma => "trailing comma"
  | trailingCharacters => "trailing characters"
  | tooDeep => "recursion limit exceeded"

end Fault

/-- What a value is found to be, where something else is asked for. -/
inductive Found where
  | null
  | bool (value : Bool)
  | num (value : Number)
  | str (value : String)
  | sequence
  | map
deriving DecidableEq

namespace Found

def message : Found → String
  | null => "null"
  | bool value => "boolean `" ++ (if value then "true" else "false") ++ "`"
  | num (.integer value) => "integer `" ++ toString value ++ "`"
  | num (.decimal value) => "floating point `" ++ value.shortestText ++ "`"
  | str value => "string " ++ Text.quoted value
  | sequence => "sequence"
  | map => "map"

end Found

namespace Value

/-- The value as a message names it. -/
def found : Value → Found
  | .null => .null
  | .bool value => .bool value
  | .num value => .num value
  | .str value => .str value
  | .arr _ => .sequence
  | .obj _ => .map

end Value

/-- How a value differs from what is asked for. -/
inductive Mismatch where
  | wrongType (found : Found) (expected : String)
  /-- The type fits, and something about the value does not. -/
  | wrongValue (found : Found) (expected : String)
  | missingField (name : String)
  | duplicateField (name : String)
  /-- A name that is none of the given ones. -/
  | unknownVariant (name : String) (known : List String)
  /-- A name that no `what` has. -/
  | unknownName (what name : String)
  /-- The items of a record end before its field number `length`, which has no default. -/
  | tooShort (length : Nat) (record : String) (fields : Nat)
  /-- There are `length` items for a record of `fields` fields. -/
  | tooLong (length fields : Nat)
deriving DecidableEq

namespace Mismatch

/-- Counted elements. -/
def elements (count : Nat) : String :=
  if count = 1 then "1 element" else toString count ++ " elements"

/-- The names between backticks, as a choice. -/
def choice : List String → String
  | [a] => "`" ++ a ++ "`"
  | [a, b] => "`" ++ a ++ "` or `" ++ b ++ "`"
  | names => "one of " ++ ", ".intercalate (names.map fun name => "`" ++ name ++ "`")

def message : Mismatch → String
  | wrongType found expected => "invalid type: " ++ found.message ++ ", expected " ++ expected
  | wrongValue found expected => "invalid value: " ++ found.message ++ ", expected " ++ expected
  | missingField name => "missing field `" ++ name ++ "`"
  | duplicateField name => "duplicate field `" ++ name ++ "`"
  | unknownVariant name known => "unknown variant `" ++ name ++ "`, expected " ++ choice known
  | unknownName what name => "unknown " ++ what ++ " `" ++ name ++ "`"
  | tooShort length record fields =>
    "invalid length " ++ toString length ++ ", expected " ++ record ++ " with " ++ elements fields
  | tooLong length fields =>
    "invalid length " ++ toString length ++ ", expected " ++ elements fields ++ " in sequence"

end Mismatch

inductive Cause where
  | malformed (fault : Fault)
  | mismatch (difference : Mismatch)
deriving DecidableEq

namespace Cause

def message : Cause → String
  | malformed fault => fault.message
  | mismatch difference => difference.message

end Cause

/-- A refusal, and the number of bytes of the text that lie beyond the place it is reported at. -/
structure Refusal where
  cause : Cause
  unread : Nat
deriving DecidableEq

/-- The size of a text in UTF-8. -/
def byteSize (text : List Char) : Nat :=
  text.foldl (fun size c => size + c.utf8Size) 0

/-- Refuses the text right before `rest`. -/
def refuse {α : Type} (fault : Fault) (rest : List Char) : Except Refusal α :=
  .error ⟨.malformed fault, byteSize rest⟩

/-- Refuses the text after the first byte of `rest`, or at its end if nothing is left. -/
def refuseNext {α : Type} (fault : Fault) (rest : List Char) : Except Refusal α :=
  .error ⟨.malformed fault, byteSize rest - 1⟩

/-- Refuses a value that has been read up to `rest`. -/
def reject {α : Type} (difference : Mismatch) (rest : List Char) : Except Refusal α :=
  .error ⟨.mismatch difference, byteSize rest⟩

end ShaderScript.Json
