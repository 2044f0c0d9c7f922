import Mathlib.Data.List.Forall2
import ShaderScript.Proofs.Wire.Fields

/-!
# What records are read from

Some records name a kind, and are laid out in the way of that kind; the records of any other type
are all laid out in the same way. An object is read by the shape of its kind from the members that have
the name of a field, and a list from the items behind the kind.
-/

namespace ShaderScript.Wire

open ShaderScript.Json

/-- How the records of a type are laid out: all in the same way, or in the way of their kind. -/
inductive Layout (α : Type) where
  | fixed (shape : Shape α)
  | byKind (shape : String → Except Mismatch (Shape α))

namespace Layout

variable {α : Type} {layout : Layout α} {record : α}

/-- The record of this kind has this shape; where there are no kinds, every record has it. -/
inductive Has : Layout α → Option String → Shape α → Prop
  | fixed (shape : Shape α) : Has (.fixed shape) none shape
  | byKind {shapes : String → Except Mismatch (Shape α)} {name : String} {shape : Shape α}
    (h : shapes name = .ok shape) : Has (.byKind shapes) (some name) shape

def ofMembers (members : List (String × Decoder)) : Layout α → Except Mismatch α
  | fixed shape => shape.ofMembers members
  | byKind shape => taggedOfMembers shape members

def ofItems (items : List Decoder) : Layout α → Except Mismatch α
  | fixed shape => shape.ofItems items
  | byKind shape => taggedOfItems shape items

/-- The members name this kind, if any. -/
def KindIs : Option String → List (String × Value) → Prop
  | none, _ => True
  | some name, members => occurrences "kind" members = [("kind", .str name)]

/-- The shape that an object with these members is read by. -/
def ShapeOf (layout : Layout α) (members : List (String × Value)) (shape : Shape α) : Prop :=
  ∃ kind, layout.Has kind shape ∧ KindIs kind members

theorem ShapeOf.unique {members : List (String × Value)} {shape other : Shape α}
    (h : layout.ShapeOf members shape) (hother : layout.ShapeOf members other) : shape = other := by
  obtain ⟨kind, hhas, hkind⟩ := h
  obtain ⟨otherKind, hother, hotherKind⟩ := hother
  cases hhas with
  | fixed =>
    cases hother
    rfl
  | @byKind shapes name shape h =>
    cases hother with
    | @byKind _ otherName other hother =>
      have hname : name = otherName := by simpa using hkind.symm.trans hotherKind
      rw [hname, hother] at h
      exact (Except.ok.inj h).symm

/-- What an object is read as. -/
theorem ofMembers_eq_ok {members : List (String × Value)}
    (hnames : ∀ kind shape, layout.Has kind shape → (shape.fields.map Field.name).Nodup) :
    layout.ofMembers (decodeMembers members) = .ok record ↔
      ∃ shape, layout.ShapeOf members shape ∧
        ∃ contents, Filled members shape.fields contents ∧ shape.build contents = record := by
  cases layout with
  | fixed shape =>
    rw [ofMembers, Shape.ofMembers_eq_ok (hnames none shape (.fixed shape))]
    constructor
    · exact fun hread => ⟨shape, ⟨none, .fixed shape, trivial⟩, hread⟩
    · rintro ⟨_, ⟨_, ⟨⟩, -⟩, hread⟩
      exact hread
  | byKind shapes =>
    simp only [ofMembers, taggedOfMembers, bind_eq_ok, tagOfMembers_eq_ok]
    constructor
    · rintro ⟨shape, ⟨name, hkind, hshape⟩, hread⟩
      have hhas : Has (.byKind shapes) (some name) shape := .byKind hshape
      exact ⟨shape, ⟨some name, hhas, hkind⟩, (Shape.ofMembers_eq_ok (hnames _ _ hhas)).mp hread⟩
    · rintro ⟨shape, ⟨kind, hhas, hkind⟩, hread⟩
      have hobject := (Shape.ofMembers_eq_ok (hnames _ _ hhas)).mpr hread
      cases hhas with
      | @byKind _ name _ hshape => exact ⟨shape, ⟨name, hkind, hshape⟩, hobject⟩

/-- The member that names the kind, if any. -/
def kindMembers : Option String → List (String × Value)
  | none => []
  | some name => [("kind", .str name)]

/-- The item that names the kind, if any. -/
def kindItems : Option String → List Value
  | none => []
  | some name => [.str name]

theorem kindIs_kindMembers (kind : Option String) {members : List (String × Value)}
    (h : ∀ member ∈ members, member.1 ≠ "kind") : KindIs kind (kindMembers kind ++ members) := by
  cases kind with
  | none => trivial
  | some name =>
    rw [KindIs, kindMembers, List.singleton_append, occurrences_cons_self, occurrences_eq_nil.mpr h]

theorem filled_kindMembers (kind : Option String) {members : List (String × Value)}
    {fields : List Field} {contents : Values fields} (h : "kind" ∉ fields.map Field.name) :
    Filled (kindMembers kind ++ members) fields contents ↔ Filled members fields contents := by
  cases kind with
  | none => exact Iff.rfl
  | some name => exact filled_cons_of_notMem h _ _

/-- A list is read by the shape of its kind. -/
theorem ofItems_kindItems {kind : Option String} {shape : Shape α} (h : layout.Has kind shape)
    (values : List Value) :
    layout.ofItems (decodeItems (kindItems kind ++ values)) =
      shape.ofItems (decodeItems values) := by
  cases h with
  | fixed => rfl
  | byKind h =>
    simp only [ofItems, kindItems, List.cons_append, List.nil_append, decodeItems, taggedOfItems,
      decode, decodeString, bind, Except.bind, h]

end Layout

namespace RecordType

def layout : (type : RecordType) → Layout type.Carrier
  | .node => .byKind fun name => .ok (nodeShape (Kind.ofName name))
  | .element => .byKind elementShape
  | .declarator => .fixed declaratorShape
  | .parameter => .fixed parameterShape
  | .alternate => .fixed alternateShape
  | .switchCase => .fixed switchCaseShape

/-- No field of a node has the name of another, and none has that of the kind. -/
theorem nodup_nodeShape (kind : Kind) :
    ("kind" :: (nodeShape kind).fields.map Field.name).Nodup := by
  cases kind <;> decide

/-- No field of a record has the name of another, and none has that of the kind. -/
theorem nodup_layout {type : RecordType} {kind : Option String} {shape : Shape type.Carrier}
    (h : type.layout.Has kind shape) : ("kind" :: shape.fields.map Field.name).Nodup := by
  cases type with
  | node =>
    obtain ⟨⟩ | ⟨hshape⟩ := h
    cases hshape
    exact nodup_nodeShape _
  | element =>
    obtain ⟨⟩ | ⟨hshape⟩ := h
    unfold elementShape at hshape
    split at hshape
    · cases hshape
      decide
    · split at hshape
      · cases hshape
        decide
      · cases hshape
  | declarator | parameter | alternate | switchCase =>
    cases h
    decide

theorem nodup_shapeOf {type : RecordType} {members : List (String × Value)}
    {shape : Shape type.Carrier} (h : type.layout.ShapeOf members shape) :
    ("kind" :: shape.fields.map Field.name).Nodup := by
  obtain ⟨kind, hhas, -⟩ := h
  exact nodup_layout hhas

variable {type : RecordType} {record : type.Carrier}

theorem decode_obj_eq_ok {members : List (String × Value)} :
    decode (.obj members) (.record type) = .ok record ↔
      ∃ shape, type.layout.ShapeOf members shape ∧
        ∃ contents, Filled members shape.fields contents ∧ shape.build contents = record := by
  have hread : decode (.obj members) (.record type) =
      type.layout.ofMembers (decodeMembers members) := by
    rw [decode, decodeObject]
    cases type <;> rfl
  rw [hread, Layout.ofMembers_eq_ok fun kind shape h => (List.nodup_cons.mp (nodup_layout h)).2]

/-- An object that names its kind first is read by the shape of that kind. -/
theorem decode_kindMembers_eq_ok {kind : Option String} {shape : Shape type.Carrier}
    (hhas : type.layout.Has kind shape) {members : List (String × Value)}
    (hmembers : ∀ member ∈ members, member.1 ≠ "kind") :
    decode (.obj (Layout.kindMembers kind ++ members)) (.record type) = .ok record ↔
      ∃ contents, Filled members shape.fields contents ∧ shape.build contents = record := by
  have hkind := (List.nodup_cons.mp (nodup_layout hhas)).1
  have hshape : type.layout.ShapeOf (Layout.kindMembers kind ++ members) shape :=
    ⟨kind, hhas, Layout.kindIs_kindMembers kind hmembers⟩
  rw [decode_obj_eq_ok]
  constructor
  · rintro ⟨other, hother, contents, hfilled, hbuild⟩
    obtain rfl := hshape.unique hother
    exact ⟨contents, (Layout.filled_kindMembers kind hkind).mp hfilled, hbuild⟩
  · rintro ⟨contents, hfilled, hbuild⟩
    exact ⟨shape, hshape, contents, (Layout.filled_kindMembers kind hkind).mpr hfilled, hbuild⟩

theorem decode_arr (items : List Value) :
    decode (.arr items) (.record type) = type.layout.ofItems (decodeItems items) := by
  rw [decode, decodeList]
  cases type <;> rfl

/-- What is not null is read like a record. -/
theorem decode_optional_eq_ok {value : Value} (hnull : value ≠ .null)
    {content : Option type.Carrier} :
    decode value (.optional type) = .ok content ↔
      ∃ record, decode value (.record type) = .ok record ∧ some record = content := by
  cases value with
  | null => exact absurd rfl hnull
  | bool _ | num _ => simp [decode, decodeBool]
  | str _ => simp [decode, decodeString]
  | arr items => exact map_eq_ok
  | obj members => exact map_eq_ok

/-- A list of records is read if each item is. -/
theorem decode_list_eq_ok {items : List Value} {records : List type.Carrier} :
    decode (.arr items) (.list type) = .ok records ↔
      List.Forall₂ (fun item record => decode item (.record type) = .ok record) items records := by
  rw [decode, decodeList]
  induction items generalizing records with
  | nil => cases records <;> simp [decodeItems, pure, Except.pure]
  | cons item items ih =>
    rw [decodeItems, List.mapM_cons]
    simp only [bind_eq_ok, ih, pure, Except.pure, Except.ok.injEq]
    constructor
    · rintro ⟨record, hitem, others, hitems, rfl⟩
      exact .cons hitem hitems
    · rintro (_ | ⟨hitem, hitems⟩)
      exact ⟨_, hitem, _, hitems, rfl⟩

end RecordType

end ShaderScript.Wire
