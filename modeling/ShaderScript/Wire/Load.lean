import ShaderScript.Json.Position
import ShaderScript.Json.Reader
import ShaderScript.Json.Skip
import ShaderScript.Wire.Decode

/-!
# Loading programs

A program is an object with the member `body`, or a list with that one item. Its nodes are read one
after another: each is read as a whole, with an eye on its kind, and then decoded. So a text that is
not JSON is refused no later than a value that is not a node, unless the fault comes after it.
-/

namespace ShaderScript.Wire

open ShaderScript.Json

/-- Brackets that may be open at the same time. -/
def maxDepth : Nat := 127

/-- Reads the name of a kind. -/
def readTag (text : List Char) : Except Refusal (String × List Char) :=
  match skipBlanks text with
  | [] => refuse .endInValue []
  | '"' :: rest => readString rest
  | rest => rejectValue (FieldType.expected .tag) rest

/-- The text after a key that ends the reading of an object: beyond the blanks, and beyond the closing
bracket if that follows. -/
def afterKey (text : List Char) : List Char :=
  match skipBlanks text with
  | '\x7d' :: rest => rest
  | rest => rest

/-- Reads a member of a top-level node. Its kind must be a string, and there must not be two. -/
def readNodeMember (limit depth : Nat) (members : List (String × Value)) (key : String)
    (text : List Char) : Except Refusal (List (String × Value) × List Char) :=
  if key = "kind" then
    if members.any fun member => member.1 == "kind" then
      reject (.duplicateField "kind") (afterKey text)
    else do
      let rest ← readColon text
      let (name, rest) ← readTag rest
      .ok (members ++ [(key, .str name)], rest)
  else readMember (readValue limit depth) members key text

/-- Reads a top-level node as a value. Its own bracket counts for the depth. -/
def readNodeValue (limit depth : Nat) (text : List Char) : Except Refusal (Value × List Char) :=
  match skipBlanks text with
  | [] => refuse .endInValue []
  | '[' :: rest =>
    match skipBlanks rest with
    | [] => refuse .endInList []
    | ']' :: rest => reject (.missingField "kind") rest
    | rest => do
      let (name, rest) ← readTag rest
      let (items, rest) ← readMoreItems (readValue limit depth) limit rest
      .ok (.arr (.str name :: items), rest)
  | '\x7b' :: rest => do
    let (members, rest) ← readMembers (readNodeMember limit depth) limit [] rest
    if members.any fun member => member.1 == "kind" then .ok (.obj members, rest)
    else reject (.missingField "kind") rest
  | rest => rejectValue (RecordType.expected .node) rest

/-- The text after an item of a list: beyond the bracket or the comma that follows, and the blanks
after a comma. -/
def afterItem (text : List Char) : List Char :=
  match skipBlanks text with
  | ']' :: rest => rest
  | ',' :: rest => skipBlanks rest
  | rest => rest

/-- Reads a top-level node. A node that cannot be decoded is reported behind it. -/
def readNode (limit depth : Nat) (text : List Char) : Except Refusal (Node × List Char) := do
  let (value, rest) ← readNodeValue limit depth text
  match decode value (.record .node) with
  | .ok node => .ok (node, rest)
  | .error difference => reject difference (afterItem rest)

/-- Reads the list of top-level nodes. Three brackets are open inside a node: its own, that of the
list and that of the program. -/
def readBody (limit : Nat) (text : List Char) : Except Refusal (List Node × List Char) :=
  match skipBlanks text with
  | [] => refuse .endInValue []
  | '[' :: rest => readItems (readNode limit (maxDepth - 3)) limit rest
  | rest => rejectValue (FieldType.expected (.list .node)) rest

/-- Reads a member of the program; all but the body are skipped. -/
def readProgramMember (limit : Nat) (body : Option (List Node)) (key : String)
    (text : List Char) : Except Refusal (Option (List Node) × List Char) :=
  if key = "body" then
    if body.isSome then reject (.duplicateField "body") (afterKey text)
    else do
      let rest ← readColon text
      let (nodes, rest) ← readBody limit rest
      .ok (some nodes, rest)
  else do
    let rest ← readColon text
    let rest ← skipValue limit rest
    .ok (body, rest)

/-- Closes the list that a program is written as, after its only item. -/
def closeProgram (text : List Char) : Except Refusal (List Char) :=
  match skipBlanks text with
  | [] => refuse .endInList []
  | ']' :: rest => .ok rest
  | ',' :: rest =>
    match skipBlanks rest with
    | ']' :: rest => refuseNext .trailingComma (']' :: rest)
    | rest => refuseNext .trailingCharacters rest
  | rest => refuseNext .trailingCharacters rest

/-- Reads a program. -/
def readProgram (limit : Nat) (text : List Char) : Except Refusal (Program × List Char) :=
  match skipBlanks text with
  | [] => refuse .endInValue []
  | '[' :: rest =>
    match skipBlanks rest with
    | [] => refuse .endInList []
    | ']' :: rest => reject (.tooShort 0 "struct Program" 1) rest
    | rest => do
      let (body, rest) ← readBody limit rest
      let rest ← closeProgram rest
      .ok (⟨body⟩, rest)
  | '\x7b' :: rest => do
    let (body, rest) ← readMembers (readProgramMember limit) limit none rest
    match body with
    | some body => .ok (⟨body⟩, rest)
    | none => reject (.missingField "body") rest
  | rest => rejectValue "struct Program" rest

/-- Reads a text that holds a program and nothing else. -/
def readAll (text : List Char) : Except Refusal Program := do
  let (program, rest) ← readProgram text.length text
  match skipBlanks rest with
  | [] => .ok program
  | rest => refuseNext .trailingCharacters rest

end ShaderScript.Wire

namespace ShaderScript

/-- Why a text is not a program, and where that shows. -/
structure LoadError where
  cause : Json.Cause
  position : Json.Position
deriving DecidableEq

namespace LoadError

def message (error : LoadError) : String :=
  let line := toString error.position.line
  let column := toString error.position.column
  "invalid AST JSON at line " ++ line ++ ", column " ++ column ++ ": " ++ error.cause.message ++
    " at line " ++ line ++ " column " ++ column

end LoadError

/-- The program that a JSON text holds. -/
def Program.load (source : String) : Except LoadError Program :=
  match Wire.readAll source.toList with
  | .ok program => .ok program
  | .error refusal => .error ⟨refusal.cause, Json.Position.before source refusal.unread⟩

end ShaderScript
