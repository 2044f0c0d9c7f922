import ShaderScript.Wire.Schema

/-!
# Reading nodes from JSON values

Every JSON value gives a `Decoder`, built from the decoders of its parts. A node and a link of a
chain name their kind first: in the member `kind`, wherever it stands in the object, or in the first
item of the list. Nothing else is looked at before the kind is known. A kind is given by its name:
the spelling of a kind inside another node by its number in the list of all kinds is left out, and a
number is refused there as it is everywhere else.
-/

namespace ShaderScript.Wire

open ShaderScript.Json

/-- Reads the kind off the members of an object; `resolve` says what the name of a kind stands
for. -/
def tagOfMembers {κ : Type} (resolve : String → Except Mismatch κ) :
    (found : Option κ) → List (String × Decoder) → Except Mismatch κ
  | some tag, [] => .ok tag
  | none, [] => .error (.missingField "kind")
  | found, (key, value) :: members =>
    if key = "kind" then
      match found with
      | some _ => .error (.duplicateField "kind")
      | none => do
        let name ← value .tag
        let tag ← resolve name
        tagOfMembers resolve (some tag) members
    else tagOfMembers resolve found members

/-- Reads a record that names its kind from the members of an object. -/
def taggedOfMembers {α : Type} (shape : String → Except Mismatch (Shape α))
    (members : List (String × Decoder)) : Except Mismatch α := do
  let shape ← tagOfMembers shape none members
  shape.ofMembers members

/-- Reads a record that names its kind from the items of a list. -/
def taggedOfItems {α : Type} (shape : String → Except Mismatch (Shape α)) :
    List Decoder → Except Mismatch α
  | [] => .error (.missingField "kind")
  | tag :: items => do
    let name ← tag .tag
    let shape ← shape name
    shape.ofItems items

def recordOfMembers (members : List (String × Decoder)) :
    (type : RecordType) → Except Mismatch type.Carrier
  | .node => taggedOfMembers (fun name => .ok (nodeShape (Kind.ofName name))) members
  | .element => taggedOfMembers elementShape members
  | .declarator => declaratorShape.ofMembers members
  | .parameter => parameterShape.ofMembers members
  | .alternate => alternateShape.ofMembers members
  | .switchCase => switchCaseShape.ofMembers members

def recordOfItems (items : List Decoder) : (type : RecordType) → Except Mismatch type.Carrier
  | .node => taggedOfItems (fun name => .ok (nodeShape (Kind.ofName name))) items
  | .element => taggedOfItems elementShape items
  | .declarator => declaratorShape.ofItems items
  | .parameter => parameterShape.ofItems items
  | .alternate => alternateShape.ofItems items
  | .switchCase => switchCaseShape.ofItems items

/-- The value of this name, or a mismatch that says what has no such name. -/
def named {α : Type} (what name : String) (value : Option α) : Except Mismatch α :=
  match value with
  | some value => .ok value
  | none => .error (.unknownName what name)

def qualifierNamed (name : String) : Except Mismatch Qualifier :=
  match Qualifier.ofSpelling? name with
  | some qualifier => .ok qualifier
  | none => .error (.unknownVariant name (Qualifier.all.map Qualifier.spelling))

/-- A qualifier as an object: its name is the only key, and the key has no content. -/
def qualifierOfMembers : List (String × Decoder) → Except Mismatch Qualifier
  | [(name, content)] => do
    let qualifier ← qualifierNamed name
    content .nothing
    .ok qualifier
  | _ => .error (.wrongValue .map "map with a single key")

/-- What a string gives. -/
def decodeString (text : String) : Decoder
  | .text => .ok text
  | .tag => .ok text
  | .numberKind => named "number type" text (NumberKind.ofSpelling? text)
  | .binaryOp => named "binary operator" text (BinaryOp.ofSpelling? text)
  | .unaryOp => named "unary operator" text (UnaryOp.ofSpelling? text)
  | .qualifier => (qualifierNamed text).map some
  | type => .error (.wrongType (.str text) type.expected)

/-- What null gives: nothing, where nothing is allowed. -/
def decodeNull : Decoder
  | .optional _ => .ok none
  | .qualifier => .ok none
  | .nothing => .ok ()
  | type => .error (.wrongType .null type.expected)

def decodeBool (value : Bool) : Decoder
  | .flag => .ok value
  | type => .error (.wrongType (.bool value) type.expected)

/-- What an object with these members gives. -/
def decodeObject (members : List (String × Decoder)) : Decoder
  | .record type => recordOfMembers members type
  | .optional type => (recordOfMembers members type).map some
  | .qualifier => (qualifierOfMembers members).map some
  | .nothing => if members.isEmpty then .ok () else .error (.wrongType .map (FieldType.expected .nothing))
  | type => .error (.wrongType .map type.expected)

/-- What a list of these items gives. -/
def decodeList (items : List Decoder) : Decoder
  | .record type => recordOfItems items type
  | .optional type => (recordOfItems items type).map some
  | .list type => items.mapM fun item => item (.record type)
  | type => .error (.wrongType .sequence type.expected)

mutual

def decode : Value → Decoder
  | .null => decodeNull
  | .bool value => decodeBool value
  | .num value => fun type => .error (.wrongType (.num value) type.expected)
  | .str value => decodeString value
  | .arr items => decodeList (decodeItems items)
  | .obj members => decodeObject (decodeMembers members)

def decodeItems : List Value → List Decoder
  | [] => []
  | item :: items => decode item :: decodeItems items

def decodeMember : String × Value → String × Decoder
  | (key, value) => (key, decode value)

def decodeMembers : List (String × Value) → List (String × Decoder)
  | [] => []
  | member :: members => decodeMember member :: decodeMembers members

end

end ShaderScript.Wire
