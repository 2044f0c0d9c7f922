import ShaderScript.Node.Basic
import ShaderScript.Json.Fault

/-!
# Records in JSON

A record is written as an object, with its fields in any order, or as the list of its fields in
their own order. A `Shape` lists the fields, and the reading of both forms is the same for every
shape. Fields are read in the order of the text; only then are the missing ones filled in from
their defaults, or reported.
-/

namespace ShaderScript.Wire

open ShaderScript.Json

/-- The records a program is made of. -/
inductive RecordType where
  | node
  | element
  | declarator
  | parameter
  | alternate
  | switchCase
deriving DecidableEq

namespace RecordType

abbrev Carrier : RecordType → Type
  | node => Node
  | element => Element Node
  | declarator => Declarator Node
  | parameter => Parameter
  | alternate => Branch Node
  | switchCase => Branch Node

/-- The record as a message names it. -/
def expected : RecordType → String
  | node => "internally tagged enum Node"
  | element => "internally tagged enum Element"
  | declarator => "struct Declarator"
  | parameter => "struct Parameter"
  | alternate => "struct ElseBranch"
  | switchCase => "struct SwitchCase"

end RecordType

/-- What a field can hold. -/
inductive FieldType where
  | text
  /-- The name of a kind. -/
  | tag
  | flag
  | numberKind
  | binaryOp
  | unaryOp
  | qualifier
  /-- Nothing: null, or an object without members. -/
  | nothing
  | record (type : RecordType)
  | optional (type : RecordType)
  | list (type : RecordType)
deriving DecidableEq

namespace FieldType

abbrev Carrier : FieldType → Type
  | text => String
  | tag => String
  | flag => Bool
  | numberKind => NumberKind
  | binaryOp => BinaryOp
  | unaryOp => UnaryOp
  | qualifier => Option Qualifier
  | nothing => Unit
  | record type => type.Carrier
  | optional type => Option type.Carrier
  | list type => List type.Carrier

/-- The content of a field as a message names it. -/
def expected : FieldType → String
  | text | numberKind | binaryOp | unaryOp => "a string"
  | tag => "variant identifier"
  | flag => "a boolean"
  | qualifier => "string or map"
  | nothing => "unit"
  | record type | optional type => type.expected
  | list _ => "a sequence"

end FieldType

/-- A value, as far as records are concerned: what it gives for each type of field. -/
abbrev Decoder :=
  (type : FieldType) → Except Mismatch type.Carrier

structure Field where
  name : String
  type : FieldType
  /-- What a missing field stands for, if it may be missing. -/
  fallback : Option type.Carrier

/-- A value for each field. -/
abbrev Values : List Field → Type
  | [] => Unit
  | field :: fields => field.type.Carrier × Values fields

/-- The values found so far. -/
abbrev Slots : List Field → Type
  | [] => Unit
  | field :: fields => Option field.type.Carrier × Slots fields

namespace Slots

/-- Nothing is found yet. -/
def empty : (fields : List Field) → Slots fields
  | [] => ()
  | _ :: fields => (none, empty fields)

/-- Puts the member with this key into its field. A member that no field is named for is ignored. -/
def place (key : String) (value : Decoder) : (fields : List Field) → Slots fields →
    Except Mismatch (Slots fields)
  | [], slots => .ok slots
  | field :: fields, (slot, slots) =>
    if field.name = key then
      match slot with
      | some _ => .error (.duplicateField key)
      | none => do
        let read ← value field.type
        .ok (some read, slots)
    else do
      let slots ← place key value fields slots
      .ok (slot, slots)

/-- Puts every member into its field, in order. -/
def fill (fields : List Field) : Slots fields → List (String × Decoder) →
    Except Mismatch (Slots fields)
  | slots, [] => .ok slots
  | slots, (key, value) :: members => do
    let slots ← place key value fields slots
    fill fields slots members

/-- Takes defaults for the fields that were not found. -/
def complete : (fields : List Field) → Slots fields → Except Mismatch (Values fields)
  | [], _ => .ok ()
  | field :: fields, (slot, slots) =>
    match slot.or field.fallback with
    | none => .error (.missingField field.name)
    | some value => do
      let values ← complete fields slots
      .ok (value, values)

end Slots

/-- How a record is laid out, and what it makes of its fields. -/
structure Shape (α : Type) where
  /-- The record as a message about its items names it. -/
  title : String
  fields : List Field
  build : Values fields → α

namespace Shape

variable {α : Type}

/-- Reads the record from the members of an object. -/
def ofMembers (shape : Shape α) (members : List (String × Decoder)) : Except Mismatch α := do
  let slots ← Slots.fill shape.fields (Slots.empty shape.fields) members
  let values ← Slots.complete shape.fields slots
  .ok (shape.build values)

/-- Reads the fields from number `index` on from a list. Returns the items that are left over. -/
def takeItems (title : String) (count : Nat) : (index : Nat) → (fields : List Field) →
    List Decoder → Except Mismatch (Values fields × List Decoder)
  | _, [], items => .ok ((), items)
  | index, field :: fields, item :: items => do
    let value ← item field.type
    let (values, rest) ← takeItems title count (index + 1) fields items
    .ok ((value, values), rest)
  | index, field :: fields, [] =>
    match field.fallback with
    | none => .error (.tooShort index title count)
    | some value => do
      let (values, rest) ← takeItems title count (index + 1) fields []
      .ok ((value, values), rest)

/-- Reads the record from the items of a list. -/
def ofItems (shape : Shape α) (items : List Decoder) : Except Mismatch α := do
  let (values, rest) ← takeItems shape.title shape.fields.length 0 shape.fields items
  if rest.isEmpty then .ok (shape.build values)
  else .error (.tooLong items.length shape.fields.length)

end Shape

/-! ## The records of a program -/

/-- A field that must be there. -/
def Field.required (name : String) (type : FieldType) : Field :=
  ⟨name, type, none⟩

/-- A field that stands for `value` when it is missing. -/
def Field.withDefault (name : String) (type : FieldType) (value : type.Carrier) : Field :=
  ⟨name, type, some value⟩

open ShaderScript.Wire.Field (required withDefault)

def declaratorShape : Shape (Declarator Node) where
  title := "struct Declarator"
  fields := [required "name" .text, required "type" .text,
    withDefault "value" (.optional .node) none, withDefault "mutable" .flag false]
  build := fun (name, type, value, mutable, ()) => ⟨name, type, value, mutable⟩

def parameterShape : Shape Parameter where
  title := "struct Parameter"
  fields := [required "name" .text, required "type" .text,
    withDefault "qualifier" .qualifier none, withDefault "mutable" .flag false]
  build := fun (name, type, qualifier, mutable, ()) => ⟨name, type, qualifier, mutable⟩

def alternateShape : Shape (Branch Node) where
  title := "struct ElseBranch"
  fields := [withDefault "cond" (.optional .node) none, required "body" (.list .node)]
  build := fun (condition, body, ()) => ⟨condition, body⟩

def switchCaseShape : Shape (Branch Node) where
  title := "struct SwitchCase"
  fields := [withDefault "condition" (.optional .node) none, withDefault "body" (.list .node) []]
  build := fun (condition, body, ()) => ⟨condition, body⟩

/-- The names of the links of a chain. -/
def elementNames : List String :=
  ["Static", "Dynamic"]

/-- The shape of the link of this name. -/
def elementShape (name : String) : Except Mismatch (Shape (Element Node)) :=
  if name = "Static" then
    .ok ⟨"struct variant Element::Static", [required "value" (.record .node)],
      fun (value, ()) => .member value⟩
  else if name = "Dynamic" then
    .ok ⟨"struct variant Element::Dynamic", [required "value" (.record .node)],
      fun (value, ()) => .index value⟩
  else .error (.unknownVariant name elementNames)

/-- The shape of the nodes of a kind. A kind without fields takes no notice of the members of an
object. -/
def nodeShape : Kind → Shape Node
  | .number =>
    ⟨"struct NumberLiteral",
      [required "value" .text, withDefault "type" .numberKind .float],
      fun (value, kind, ()) => .number value kind⟩
  | .string =>
    ⟨"struct StringLiteral", [required "value" .text], fun (value, ()) => .string value⟩
  | .accessor =>
    ⟨"struct Accessor", [required "property" .text], fun (property, ()) => .accessor property⟩
  | .chain =>
    ⟨"struct AccessorChain",
      [required "object" (.record .node), required "elements" (.list .element)],
      fun (object, elements, ()) => .chain object elements⟩
  | .operator =>
    ⟨"struct Operator",
      [required "type" .binaryOp, required "left" (.record .node),
        required "right" (.record .node)],
      fun (op, left, right, ()) => .operator op left right⟩
  | .unary =>
    ⟨"struct Unary",
      [required "type" .unaryOp, required "expression" (.record .node),
        withDefault "postfix" .flag false],
      fun (op, operand, trailing, ()) => .unary op operand trailing⟩
  | .ternary =>
    ⟨"struct Ternary",
      [required "cond" (.record .node), required "left" (.record .node),
        required "right" (.record .node)],
      fun (condition, left, right, ()) => .ternary condition left right⟩
  | .call =>
    ⟨"struct FunctionCall",
      [required "name" .text, withDefault "params" (.list .node) []],
      fun (name, args, ()) => .call name args⟩
  | .return =>
    ⟨"struct Return", [withDefault "value" (.optional .node) none],
      fun (value, ()) => .return value⟩
  | .break => ⟨"struct Break", [], fun () => .break⟩
  | .continue => ⟨"struct Continue", [], fun () => .continue⟩
  | .discard => ⟨"struct Discard", [], fun () => .discard⟩
  | .bindings =>
    ⟨"struct VariableDeclaration", [required "declarators" (.list .declarator)],
      fun (declarators, ()) => .bindings declarators⟩
  | .uniform =>
    ⟨"struct UniformDeclaration", [required "name" .text, required "type" .text],
      fun (name, type, ()) => .uniform name type⟩
  | .varying =>
    ⟨"struct VaryingDeclaration", [required "name" .text, required "type" .text],
      fun (name, type, ()) => .varying name type⟩
  | .function =>
    ⟨"struct FunctionDeclaration",
      [required "name" .text, required "type" .text,
        withDefault "params" (.list .parameter) [], withDefault "body" (.list .node) [],
        withDefault "layout" .flag true],
      fun (name, type, params, body, layout, ()) => .function ⟨name, type, params, body, layout⟩⟩
  | .conditional =>
    ⟨"struct Conditional",
      [required "cond" (.record .node), required "body" (.list .node),
        withDefault "alternates" (.list .alternate) []],
      fun (condition, body, alternates, ()) => .conditional condition body alternates⟩
  | .switch =>
    ⟨"struct Switch",
      [required "discriminant" (.record .node), required "cases" (.list .switchCase)],
      fun (discriminant, cases, ()) => .switch discriminant cases⟩
  | .loop =>
    ⟨"struct For",
      [withDefault "initialization" (.optional .node) none,
        withDefault "condition" (.optional .node) none,
        withDefault "afterthought" (.optional .node) none, required "body" (.list .node)],
      fun (initial, condition, afterthought, body, ()) =>
        .loop initial condition afterthought body⟩
  | .unknown => ⟨"struct Unknown", [], fun () => .unknown⟩

end ShaderScript.Wire
