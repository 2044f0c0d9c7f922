import ShaderScript.Json.Token

/-!
# Reading JSON values

Lists and objects are read by two loops that know the punctuation and leave the items and the
members to a reader they are given; whole values are one such reader, records another. A value may
open only a limited number of brackets inside one another. No list or object can have more entries
than the text has characters, which bounds the loops.
-/

namespace ShaderScript.Json

section Loops

variable {α σ : Type}

/-- Reads the remaining items of a list, up to and including its closing bracket. -/
def readMoreItems (item : List Char → Except Refusal (α × List Char)) :
    (limit : Nat) → List Char → Except Refusal (List α × List Char)
  | 0, _ => refuse .endInList []
  | limit + 1, text =>
    match skipBlanks text with
    | [] => refuse .endInList []
    | ']' :: rest => .ok ([], rest)
    | ',' :: rest =>
      match skipBlanks rest with
      | [] => refuse .endInValue []
      | ']' :: rest => refuseNext .trailingComma (']' :: rest)
      | rest => do
        let (first, rest) ← item rest
        let (more, rest) ← readMoreItems item limit rest
        .ok (first :: more, rest)
    | rest => refuseNext .expectedCommaInList rest

/-- Reads the items of a list after its opening bracket. -/
def readItems (item : List Char → Except Refusal (α × List Char)) (limit : Nat)
    (text : List Char) : Except Refusal (List α × List Char) :=
  match skipBlanks text with
  | [] => refuse .endInList []
  | ']' :: rest => .ok ([], rest)
  | rest => do
    let (first, rest) ← item rest
    let (more, rest) ← readMoreItems item limit rest
    .ok (first :: more, rest)

/-- Reads a key after its opening quote, and the member that has it. -/
def readKeyed (member : σ → String → List Char → Except Refusal (σ × List Char)) (state : σ)
    (text : List Char) : Except Refusal (σ × List Char) := do
  let (key, rest) ← readString text
  member state key rest

/-- Reads the remaining members of an object, up to and including its closing bracket. -/
def readMoreMembers (member : σ → String → List Char → Except Refusal (σ × List Char)) :
    (limit : Nat) → σ → List Char → Except Refusal (σ × List Char)
  | 0, _, _ => refuse .endInObject []
  | limit + 1, state, text =>
    match skipBlanks text with
    | [] => refuse .endInObject []
    | '\x7d' :: rest => .ok (state, rest)
    | ',' :: rest =>
      match skipBlanks rest with
      | [] => refuse .endInValue []
      | '"' :: rest => do
        let (state, rest) ← readKeyed member state rest
        readMoreMembers member limit state rest
      | '\x7d' :: rest => refuseNext .trailingComma ('\x7d' :: rest)
      | rest => refuseNext .keyNotString rest
    | rest => refuseNext .expectedCommaInObject rest

/-- Reads the members of an object after its opening bracket. What is read of them is gathered by
`member`, which takes over after each key. -/
def readMembers (member : σ → String → List Char → Except Refusal (σ × List Char)) (limit : Nat)
    (state : σ) (text : List Char) : Except Refusal (σ × List Char) :=
  match skipBlanks text with
  | [] => refuse .endInObject []
  | '\x7d' :: rest => .ok (state, rest)
  | '"' :: rest => do
    let (state, rest) ← readKeyed member state rest
    readMoreMembers member limit state rest
  | rest => refuseNext .keyNotString rest

end Loops

/-- Reads the colon and the value of a member, and adds it to the members before it. -/
def readMember (value : List Char → Except Refusal (Value × List Char))
    (members : List (String × Value)) (key : String) (text : List Char) :
    Except Refusal (List (String × Value) × List Char) := do
  let rest ← readColon text
  let (read, rest) ← value rest
  .ok (members ++ [(key, read)], rest)

/-- Reads a value that opens at most `depth` brackets inside one another. -/
def readValue (limit : Nat) : (depth : Nat) → List Char → Except Refusal (Value × List Char)
  | 0, text =>
    match skipBlanks text with
    | [] => refuse .endInValue []
    | '[' :: rest => refuseNext .tooDeep ('[' :: rest)
    | '\x7b' :: rest => refuseNext .tooDeep ('\x7b' :: rest)
    | rest => (readScalar? rest).getD (refuseNext .expectedValue rest)
  | depth + 1, text =>
    match skipBlanks text with
    | [] => refuse .endInValue []
    | '[' :: rest => do
      let (items, rest) ← readItems (readValue limit depth) limit rest
      .ok (.arr items, rest)
    | '\x7b' :: rest => do
      let (members, rest) ← readMembers (readMember (readValue limit depth)) limit [] rest
      .ok (.obj members, rest)
    | rest => (readScalar? rest).getD (refuseNext .expectedValue rest)

/-- Refuses a value because it is not what is expected. A scalar is read first and the refusal stands
after it; a bracket is left unread. -/
def rejectValue {α : Type} (expected : String) (text : List Char) : Except Refusal α :=
  match text with
  | '[' :: _ => reject (.wrongType .sequence expected) text
  | '\x7b' :: _ => reject (.wrongType .map expected) text
  | _ => do
    let (value, rest) ← (readScalar? text).getD (refuseNext .expectedValue text)
    reject (.wrongType value.found expected) rest

end ShaderScript.Json
