import ShaderScript.Json.Value
import ShaderScript.Decimal.Shortest

/-!
# Writing JSON values

Values are written over several lines: each item and each member on a line of its own, two blanks
further in than its bracket.
-/

namespace ShaderScript.Json

/-- A digit of a number below sixteen. -/
def hexDigit (digit : Nat) : Char :=
  if digit < 10 then Char.ofNat ('0'.toNat + digit) else Char.ofNat ('a'.toNat + digit - 10)

/-- A character as it stands in a written string. -/
def escapeChar (c : Char) : List Char :=
  if c = '"' then ['\\', '"']
  else if c = '\\' then ['\\', '\\']
  else if c = '\x08' then ['\\', 'b']
  else if c = '\x0c' then ['\\', 'f']
  else if c = '\n' then ['\\', 'n']
  else if c = '\r' then ['\\', 'r']
  else if c = '\t' then ['\\', 't']
  else if c < ' ' then ['\\', 'u', '0', '0', hexDigit (c.toNat / 16), hexDigit (c.toNat % 16)]
  else [c]

def writeString (text : String) : List Char :=
  '"' :: text.toList.flatMap escapeChar ++ ['"']

/-- The beginning of a line at the given depth. -/
def newLine (depth : Nat) : List Char :=
  '\n' :: List.replicate (2 * depth) ' '

def writeNumber : Number → List Char
  | .integer value => (toString value).toList
  | .decimal value => value.shortestText.toList

mutual

/-- Writes a value that stands at the given depth. -/
def writeValue (depth : Nat) : Value → List Char
  | .null => "null".toList
  | .bool true => "true".toList
  | .bool false => "false".toList
  | .num value => writeNumber value
  | .str value => writeString value
  | .arr [] => ['[', ']']
  | .arr (first :: rest) =>
    '[' :: newLine (depth + 1) ++ writeValue (depth + 1) first ++
      writeMoreItems (depth + 1) rest ++ newLine depth ++ [']']
  | .obj [] => ['\x7b', '\x7d']
  | .obj (first :: rest) =>
    '\x7b' :: newLine (depth + 1) ++ writeMember (depth + 1) first ++
      writeMoreMembers (depth + 1) rest ++ newLine depth ++ ['\x7d']

/-- Writes the items of a list after the first. -/
def writeMoreItems (depth : Nat) : List Value → List Char
  | [] => []
  | item :: rest => ',' :: newLine depth ++ writeValue depth item ++ writeMoreItems depth rest

def writeMember (depth : Nat) : String × Value → List Char
  | (key, value) => writeString key ++ [':', ' '] ++ writeValue depth value

/-- Writes the members of an object after the first. -/
def writeMoreMembers (depth : Nat) : List (String × Value) → List Char
  | [] => []
  | member :: rest =>
    ',' :: newLine depth ++ writeMember depth member ++ writeMoreMembers depth rest

end

namespace Value

def write (value : Value) : String :=
  String.ofList (writeValue 0 value)

end Value

end ShaderScript.Json
