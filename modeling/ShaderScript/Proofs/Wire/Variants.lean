import Mathlib.Data.List.Nodup
import ShaderScript.Proofs.Wire.Acceptance
import ShaderScript.Proofs.Wire.Records

/-!
# Variations of a value

The same content can be written as different values: the members of an object may come in any order
and have others among them, a default may be written out or not, and a record may be an object or a
list. `Variation` lists these freedoms, at any depth, for the content of a field of each type. None
of them makes a difference to what is read.
-/

namespace ShaderScript.Wire

open ShaderScript.Json

/-- How a content that can be a default is written out. -/
inductive WritesDefault : (type : FieldType) → type.Carrier → Value → Prop
  | flag (value : Bool) : WritesDefault .flag value (.bool value)
  | numberKind (kind : NumberKind) : WritesDefault .numberKind kind (.str kind.spelling)
  | qualifier : WritesDefault .qualifier none .null
  | optional (type : RecordType) : WritesDefault (.optional type) none .null
  | list (type : RecordType) : WritesDefault (.list type) [] (.arr [])

/-- The values are written differently, but stand for the same content of a field of this type. -/
inductive Variation : FieldType → Value → Value → Prop
  | refl (type : FieldType) (value : Value) : Variation type value value
  | symm {type : FieldType} {value other : Value} (h : Variation type value other) :
    Variation type other value
  | trans {type : FieldType} {value other third : Value} (h : Variation type value other)
    (hother : Variation type other third) : Variation type value third
  /-- An item of a list is varied. -/
  | item {type : RecordType} {before after : List Value} {value other : Value}
    (h : Variation (.record type) value other) :
    Variation (.list type) (.arr (before ++ value :: after)) (.arr (before ++ other :: after))
  | optional {type : RecordType} {value other : Value} (h : Variation (.record type) value other) :
    Variation (.optional type) value other
  /-- A field of an object is varied. -/
  | field {type : RecordType} {before after : List (String × Value)} {shape : Shape type.Carrier}
    {field : Field} {value other : Value}
    (hshape : type.layout.ShapeOf (before ++ (field.name, value) :: after) shape)
    (hfield : field ∈ shape.fields) (h : Variation field.type value other) :
    Variation (.record type) (.obj (before ++ (field.name, value) :: after))
      (.obj (before ++ (field.name, other) :: after))
  /-- The members of an object change places. -/
  | permute {type : RecordType} {members others : List (String × Value)}
    (h : members.Perm others) : Variation (.record type) (.obj members) (.obj others)
  /-- A member is added that is neither the kind nor a field. -/
  | extra {type : RecordType} {members : List (String × Value)} {shape : Shape type.Carrier}
    {key : String} (value : Value) (hshape : type.layout.ShapeOf members shape)
    (hkind : key ≠ "kind") (hkey : key ∉ shape.fields.map Field.name) :
    Variation (.record type) (.obj members) (.obj ((key, value) :: members))
  /-- A field that is missing is written out with its default. -/
  | default {type : RecordType} {members : List (String × Value)} {shape : Shape type.Carrier}
    {field : Field} {content : field.type.Carrier} {value : Value}
    (hshape : type.layout.ShapeOf members shape) (hfield : field ∈ shape.fields)
    (hmissing : ∀ member ∈ members, member.1 ≠ field.name)
    (hdefault : field.fallback = some content) (hvalue : WritesDefault field.type content value) :
    Variation (.record type) (.obj members) (.obj ((field.name, value) :: members))
  /-- An object with its kind and its first fields becomes a list of the same. -/
  | array {type : RecordType} {kind : Option String} {shape : Shape type.Carrier}
    {values : List Value} (hshape : type.layout.Has kind shape)
    (hlength : values.length ≤ shape.fields.length) :
    Variation (.record type)
      (.obj (Layout.kindMembers kind ++ (shape.fields.map Field.name).zip values))
      (.arr (Layout.kindItems kind ++ values))

/-! ## What is read -/

theorem shapeOf_of_perm {type : RecordType} {members others : List (String × Value)}
    {shape : Shape type.Carrier}
    (hperm : (occurrences "kind" members).Perm (occurrences "kind" others))
    (h : type.layout.ShapeOf members shape) : type.layout.ShapeOf others shape := by
  obtain ⟨kind, hhas, hkind⟩ := h
  refine ⟨kind, hhas, ?_⟩
  cases kind with
  | none => trivial
  | some name =>
    rw [Layout.KindIs] at hkind ⊢
    rw [hkind, List.singleton_perm] at hperm
    exact hperm.symm

/-- The same content is read from both values, or none; null is a variation of null only. -/
structure Alike (type : FieldType) (value other : Value) : Prop where
  null : value = .null ↔ other = .null
  reads (content : type.Carrier) : decode value type = .ok content ↔ decode other type = .ok content

theorem alike_objects {type : RecordType} {members others : List (String × Value)}
    (hkind : (occurrences "kind" members).Perm (occurrences "kind" others))
    (h : ∀ shape, type.layout.ShapeOf members shape → ∀ field ∈ shape.fields, ∀ content,
      FieldHolds members field content ↔ FieldHolds others field content) :
    Alike (.record type) (.obj members) (.obj others) := by
  refine ⟨by simp, fun record => ?_⟩
  rw [RecordType.decode_obj_eq_ok, RecordType.decode_obj_eq_ok]
  constructor
  · rintro ⟨shape, hshape, contents, hfilled, hbuild⟩
    exact ⟨shape, shapeOf_of_perm hkind hshape, contents,
      (filled_congr (h shape hshape)).mp hfilled, hbuild⟩
  · rintro ⟨shape, hshape, contents, hfilled, hbuild⟩
    have hshape := shapeOf_of_perm hkind.symm hshape
    exact ⟨shape, hshape, contents, (filled_congr (h shape hshape)).mpr hfilled, hbuild⟩

theorem alike_permute {type : RecordType} {members others : List (String × Value)}
    (h : members.Perm others) : Alike (.record type) (.obj members) (.obj others) :=
  alike_objects (h.filter _) fun _ _ _ _ _ => fieldHolds_congr (h.filter _)

section Added

variable {type : RecordType} {members : List (String × Value)} {shape : Shape type.Carrier}

theorem alike_extra {key : String} (value : Value) (hshape : type.layout.ShapeOf members shape)
    (hkind : key ≠ "kind") (hkey : key ∉ shape.fields.map Field.name) :
    Alike (.record type) (.obj members) (.obj ((key, value) :: members)) := by
  refine alike_objects (by rw [occurrences_cons_of_ne hkind]) fun other hother field hfield _ => ?_
  obtain rfl := hshape.unique hother
  have hname : key ≠ field.name := fun heq => hkey (heq ▸ List.mem_map_of_mem hfield)
  exact fieldHolds_congr (by rw [occurrences_cons_of_ne hname])

theorem decode_default {type : FieldType} {content : type.Carrier} {value : Value}
    (h : WritesDefault type content value) : decode value type = .ok content := by
  cases h with
  | flag value => rfl
  | numberKind kind => exact (holds_numberKind kind).decodes
  | qualifier => rfl
  | optional type => rfl
  | list type => rfl

theorem alike_default {field : Field} {content : field.type.Carrier} {value : Value}
    (hshape : type.layout.ShapeOf members shape) (hfield : field ∈ shape.fields)
    (hmissing : ∀ member ∈ members, member.1 ≠ field.name)
    (hdefault : field.fallback = some content) (hvalue : WritesDefault field.type content value) :
    Alike (.record type) (.obj members) (.obj ((field.name, value) :: members)) := by
  obtain ⟨hkind, hnames⟩ := List.nodup_cons.mp (RecordType.nodup_shapeOf hshape)
  have hname : field.name ≠ "kind" := fun heq => hkind (heq ▸ List.mem_map_of_mem hfield)
  refine alike_objects (by rw [occurrences_cons_of_ne hname]) fun used hused other hother _ => ?_
  obtain rfl := hshape.unique hused
  by_cases heq : other.name = field.name
  · obtain rfl := List.inj_on_of_nodup_map hnames hother hfield heq
    have hnone := occurrences_eq_nil.mpr hmissing
    have hgiven : occurrences other.name ((other.name, value) :: members) =
        [(other.name, value)] := by rw [occurrences_cons_self, hnone]
    rw [fieldHolds_missing hnone, fieldHolds_given hgiven, hdefault, decode_default hvalue]
    simp
  · exact fieldHolds_congr (by rw [occurrences_cons_of_ne (Ne.symm heq)])

end Added

/-- A field that is read from its member has no other member, so the member can be changed. -/
theorem fieldHolds_vary {before after : List (String × Value)} {field : Field}
    {value other : Value} {content : field.type.Carrier}
    (h : ∀ content, decode value field.type = .ok content → decode other field.type = .ok content)
    (hholds : FieldHolds (before ++ (field.name, value) :: after) field content) :
    FieldHolds (before ++ (field.name, other) :: after) field content := by
  have hsplit (value : Value) : occurrences field.name (before ++ (field.name, value) :: after) =
      occurrences field.name before ++ (field.name, value) :: occurrences field.name after := by
    rw [occurrences_append, occurrences_cons_self]
  cases hholds with
  | missing hnone _ =>
    rw [hsplit] at hnone
    simp at hnone
  | given hvalue hdecode =>
    rw [hsplit, List.append_eq_singleton_iff] at hvalue
    obtain ⟨hbefore, hvalue⟩ | ⟨-, hvalue⟩ := hvalue
    · obtain ⟨heq, hafter⟩ := List.cons.inj hvalue
      cases heq
      exact .given (by rw [hsplit, hbefore, hafter, List.nil_append]) (h _ hdecode)
    · cases hvalue

theorem alike_field {type : RecordType} {before after : List (String × Value)}
    {shape : Shape type.Carrier} {field : Field} {value other : Value}
    (hshape : type.layout.ShapeOf (before ++ (field.name, value) :: after) shape)
    (hfield : field ∈ shape.fields) (h : Alike field.type value other) :
    Alike (.record type) (.obj (before ++ (field.name, value) :: after))
      (.obj (before ++ (field.name, other) :: after)) := by
  obtain ⟨hkind, hnames⟩ := List.nodup_cons.mp (RecordType.nodup_shapeOf hshape)
  have hsame {key : String} (hne : field.name ≠ key) :
      occurrences key (before ++ (field.name, value) :: after) =
        occurrences key (before ++ (field.name, other) :: after) := by
    simp only [occurrences_append, occurrences_cons_of_ne hne]
  have hname : field.name ≠ "kind" := fun heq => hkind (heq ▸ List.mem_map_of_mem hfield)
  refine alike_objects (by rw [hsame hname]) fun used hused second hsecond content => ?_
  obtain rfl := hshape.unique hused
  by_cases heq : second.name = field.name
  · obtain rfl := List.inj_on_of_nodup_map hnames hsecond hfield heq
    exact ⟨fieldHolds_vary fun _ => (h.reads _).mp, fieldHolds_vary fun _ => (h.reads _).mpr⟩
  · exact fieldHolds_congr (by rw [hsame (Ne.symm heq)])

/-! ## Objects and lists -/

/-- The fields are taken from a list as from the members that name them in order. -/
theorem filled_zip {fields : List Field} {values : List Value} {contents : Values fields}
    (hnames : (fields.map Field.name).Nodup) (hlength : values.length ≤ fields.length) :
    Filled ((fields.map Field.name).zip values) fields contents ↔ Taken fields values contents := by
  induction fields generalizing values with
  | nil =>
    obtain rfl := List.eq_nil_of_length_eq_zero (Nat.le_zero.mp hlength)
    exact iff_of_true trivial rfl
  | cons field fields ih =>
    obtain ⟨content, contents⟩ := contents
    rw [List.map_cons, List.nodup_cons] at hnames
    cases values with
    | nil =>
      rw [List.zip_nil_right, Filled, Taken, ← ih hnames.2 (Nat.zero_le _), List.zip_nil_right,
        fieldHolds_missing rfl]
    | cons value values =>
      have hnone : occurrences field.name ((fields.map Field.name).zip values) = [] := by
        refine occurrences_eq_nil.mpr fun member hm heq => hnames.1 ?_
        rw [← heq]
        exact (List.of_mem_zip hm).1
      have hgiven : occurrences field.name
          ((field.name, value) :: (fields.map Field.name).zip values) =
            [(field.name, value)] := by rw [occurrences_cons_self, hnone]
      rw [List.map_cons, List.zip_cons_cons, Filled, Taken, fieldHolds_given hgiven,
        filled_cons_of_notMem hnames.1, ih hnames.2 (Nat.le_of_succ_le_succ hlength)]

theorem alike_array {type : RecordType} {kind : Option String} {shape : Shape type.Carrier}
    {values : List Value} (hshape : type.layout.Has kind shape)
    (hlength : values.length ≤ shape.fields.length) :
    Alike (.record type)
      (.obj (Layout.kindMembers kind ++ (shape.fields.map Field.name).zip values))
      (.arr (Layout.kindItems kind ++ values)) := by
  obtain ⟨hkind, hnames⟩ := List.nodup_cons.mp (RecordType.nodup_layout hshape)
  have hmembers : ∀ member ∈ (shape.fields.map Field.name).zip values, member.1 ≠ "kind" := by
    intro member hm heq
    rw [← heq] at hkind
    exact hkind (List.of_mem_zip hm).1
  refine ⟨by simp, fun record => ?_⟩
  rw [RecordType.decode_kindMembers_eq_ok hshape hmembers, RecordType.decode_arr,
    Layout.ofItems_kindItems hshape, Shape.ofItems_eq_ok]
  simp only [filled_zip hnames hlength]

/-! ## Lists and optional values -/

theorem alike_item {type : RecordType} {before after : List Value} {value other : Value}
    (h : Alike (.record type) value other) :
    Alike (.list type) (.arr (before ++ value :: after)) (.arr (before ++ other :: after)) := by
  refine ⟨by simp, fun records => ?_⟩
  rw [RecordType.decode_list_eq_ok, RecordType.decode_list_eq_ok]
  induction before generalizing records with
  | nil =>
    cases records with
    | nil => simp
    | cons record records => simp [h.reads record]
  | cons item before ih =>
    cases records with
    | nil => simp
    | cons record records =>
      simp only [List.cons_append, List.forall₂_cons]
      exact and_congr_right fun _ => ih records

theorem alike_optional {type : RecordType} {value other : Value}
    (h : Alike (.record type) value other) : Alike (.optional type) value other := by
  refine ⟨h.null, fun content => ?_⟩
  by_cases hnull : value = .null
  · rw [hnull, h.null.mp hnull]
  · have hother : other ≠ .null := mt h.null.mpr hnull
    rw [RecordType.decode_optional_eq_ok hnull, RecordType.decode_optional_eq_ok hother]
    simp only [h.reads]

/-- A variation makes no difference to what is read. -/
theorem Variation.alike {type : FieldType} {value other : Value} (h : Variation type value other) :
    Alike type value other := by
  induction h with
  | refl type value => exact ⟨Iff.rfl, fun _ => Iff.rfl⟩
  | symm _ ih => exact ⟨ih.null.symm, fun content => (ih.reads content).symm⟩
  | trans _ _ ih hother =>
    exact ⟨ih.null.trans hother.null,
      fun content => (ih.reads content).trans (hother.reads content)⟩
  | item _ ih => exact alike_item ih
  | optional _ ih => exact alike_optional ih
  | field hshape hfield _ ih => exact alike_field hshape hfield ih
  | permute h => exact alike_permute h
  | extra value hshape hkind hkey => exact alike_extra value hshape hkind hkey
  | default hshape hfield hmissing hdefault hvalue =>
    exact alike_default hshape hfield hmissing hdefault hvalue
  | array hshape hlength => exact alike_array hshape hlength

/-! ## Texts -/

/-- The texts write the same program in different ways. Blanks, the members beside the body, and
whether the program is an object or a list, are up to each text; the bodies are variations of each
other. -/
def Variants (text other : String) : Prop :=
  ∃ body varied, Spelling body text ∧ Spelling varied other ∧ Variation (.list .node) body varied

end ShaderScript.Wire

namespace ShaderScript

/-- A text that is loaded is a variant of itself, and each of its variants is loaded as the same
program, if no more than 127 brackets are open at the same time in it. -/
theorem load_variant {source : String} {program : Program}
    (hload : Program.load source = .ok program) :
    Wire.Variants source source ∧
      ∀ variant, Wire.Variants source variant → Json.bracketDepth variant ≤ 127 →
        Program.load variant = .ok program := by
  constructor
  · obtain ⟨body, hsource, -⟩ := Wire.load_eq_ok_iff_spelling.mp hload
    exact ⟨body, body, hsource, hsource, .refl _ body⟩
  · rintro variant ⟨body, varied, hsource, hvariant, hvariation⟩ hdepth
    obtain ⟨-, hdecode⟩ := (Wire.load_eq_ok_iff hsource).mp hload
    have hheight := Wire.height_lt_bracketDepth hvariant
    refine Wire.load_eq_ok_iff_spelling.mpr ⟨varied, hvariant, by omega, ?_⟩
    exact (hvariation.alike.reads program.body).mp hdecode

namespace Wire

/-- A number with a note. -/
def notedNumber : Json.Value :=
  .obj [("value", .str "1"), ("note", .null), ("kind", .str "Number")]

/-- The same number as a list, with its default written out. -/
def listedNumber : Json.Value :=
  .arr [.str "Number", .str "1", .str "float"]

/-- A program with the first of them. Nobody reads its other member. -/
def notedText : String :=
  "\x7b\"by\":1e999,\"body\":[\n  \x7b\n    \"value\": \"1\",\n    \"note\": null,\n" ++
    "    \"kind\": \"Number\"\n  \x7d\n]\x7d"

/-- A program with the second. -/
def listedText : String :=
  "[ [\n  [\n    \"Number\",\n    \"1\",\n    \"float\"\n  ]\n] ]"

theorem variation_number : Variation (.record .node) notedNumber listedNumber := by
  have hhas : RecordType.node.layout.Has (some "Number") (nodeShape .number) :=
    .byKind (congrArg (fun kind => Except.ok (nodeShape kind)) (Kind.ofName_name .number))
  have hshape : RecordType.node.layout.ShapeOf [("kind", .str "Number"), ("value", .str "1")]
      (nodeShape .number) := ⟨some "Number", hhas, by simp [Layout.KindIs, occurrences]⟩
  have hfield : Field.withDefault "type" .numberKind .float ∈ (nodeShape .number).fields := by
    simp [nodeShape]
  -- The note is left out, the default is put in, and then the object becomes a list.
  have hnoted : Variation (.record .node) notedNumber
      (.obj [("note", .null), ("kind", .str "Number"), ("value", .str "1")]) :=
    .permute (@List.perm_append_comm _ [_] [_, _])
  have hplain := Variation.extra .null hshape (by decide : "note" ≠ "kind") (by decide)
  have hdefault := Variation.default hshape hfield (by decide) rfl (.numberKind .float)
  have hordered : Variation (.record .node)
      (.obj [("type", .str "float"), ("kind", .str "Number"), ("value", .str "1")])
      (.obj [("kind", .str "Number"), ("value", .str "1"), ("type", .str "float")]) :=
    .permute (@List.perm_append_comm _ [_] [_, _])
  have hlist : Variation (.record .node)
      (.obj [("kind", .str "Number"), ("value", .str "1"), ("type", .str "float")]) listedNumber :=
    @Variation.array _ _ _ [.str "1", .str "float"] hhas (by decide)
  exact hnoted.trans (hplain.symm.trans (hdefault.trans (hordered.trans hlist)))

theorem spelling_notedText : Spelling (.arr [notedNumber]) notedText := by
  have hplain : (Json.Value.arr [notedNumber]).Plain := by
    refine .arr (List.forall_mem_singleton.mpr (.obj ?_))
    simp [Json.Value.Plain.str, Json.Value.Plain.null]
  have hnumeral : Json.Numeral "1e999".toList :=
    .positive (@Json.Unsigned.mk ['1'] [] ['e', '9', '9', '9']
      (.digits (by decide) ⟨nofun, List.all_eq_true.mp rfl⟩) .none
      (@Json.Exponent.digits 'e' [] ['9', '9', '9'] (.inl rfl) (by simp)
        ⟨nofun, List.all_eq_true.mp rfl⟩))
  let member (key : String) (value : List Char) : Json.Padded (Json.MemberText × String) :=
    ⟨.empty, (⟨key.toList.flatMap Json.escapeChar, .empty, .empty, value⟩, key), .empty⟩
  refine ⟨.empty, .empty, _, @ProgramText.object _ _ Prod.snd Prod.fst
    [member "by" "1e999".toList] [] (member "body" (Json.writeValue 0 (.arr [notedNumber]))) .empty
    ?_ ⟨rfl, Json.spells_writeValue hplain 0⟩ ?_, ?_⟩
  · exact List.forall_mem_cons.mpr
      ⟨Json.spelled_flatMap _, List.forall_mem_singleton.mpr (Json.spelled_flatMap _)⟩
  · exact List.forall_mem_singleton.mpr ⟨by decide, .num hnumeral⟩
  · decide +kernel

theorem spelling_listedText : Spelling (.arr [listedNumber]) listedText := by
  have hplain : (Json.Value.arr [listedNumber]).Plain := by
    refine .arr (List.forall_mem_singleton.mpr (.arr ?_))
    simp [Json.Value.Plain.str]
  let space : Json.Gap := ⟨[' '], by simp [Json.isBlank]⟩
  refine ⟨.empty, .empty, _, @ProgramText.list _
    ⟨space, Json.writeValue 0 (.arr [listedNumber]), space⟩ .empty
    (Json.spells_writeValue hplain 0), ?_⟩
  decide +kernel

end Wire

theorem load_variant_listed :
    Json.bracketDepth Wire.listedText ≤ 127 ∧
      Program.load Wire.notedText = .ok ⟨[.number "1" .float]⟩ ∧
        Program.load Wire.listedText = .ok ⟨[.number "1" .float]⟩ := by
  have hdepth : Json.bracketDepth Wire.listedText ≤ 127 := by decide
  have hload : Program.load Wire.notedText = .ok ⟨[.number "1" .float]⟩ :=
    (Wire.load_eq_ok_iff Wire.spelling_notedText).mpr ⟨by decide, rfl⟩
  have hvariants : Wire.Variants Wire.notedText Wire.listedText :=
    ⟨_, _, Wire.spelling_notedText, Wire.spelling_listedText,
      @Wire.Variation.item _ [] [] _ _ Wire.variation_number⟩
  exact ⟨hdepth, hload, (load_variant hload).2 _ hvariants hdepth⟩

end ShaderScript
