import ShaderScript.Proofs.Json.Loops
import ShaderScript.Wire.Decode

/-!
# What the fields of a record are read from

The readers of records go through the members of an object in the order of the text, and stop at the
first one that does not suit them. What they give does not depend on that order: an object is read
if each field has at most one member, and that member, or else the default of the field, gives its
content. So a record is determined by the members that have the name of a field, whatever stands
around them.
-/

namespace ShaderScript.Wire

open ShaderScript.Json

/-- The members with this key. -/
def occurrences (key : String) (members : List (String × Value)) : List (String × Value) :=
  members.filter fun member => member.1 = key

section Occurrences

variable {key name : String} {value : Value} {members : List (String × Value)}

theorem occurrences_cons_self :
    occurrences key ((key, value) :: members) = (key, value) :: occurrences key members := by
  simp [occurrences]

theorem occurrences_cons_of_ne (h : name ≠ key) :
    occurrences key ((name, value) :: members) = occurrences key members := by
  simp [occurrences, h]

theorem occurrences_append (before after : List (String × Value)) :
    occurrences key (before ++ after) = occurrences key before ++ occurrences key after :=
  List.filter_append before after

theorem occurrences_eq_nil : occurrences key members = [] ↔ ∀ member ∈ members, member.1 ≠ key := by
  simp [occurrences, List.filter_eq_nil_iff]

end Occurrences

/-! ## Kinds -/

theorem decode_tag {value : Value} {name : String} :
    decode value .tag = .ok name ↔ value = .str name := by
  cases value <;> simp [decode, decodeNull, decodeBool, decodeString, decodeList, decodeObject]

section Kinds

variable {κ : Type} {resolve : String → Except Mismatch κ} {members : List (String × Value)}

theorem tagOfMembers_found {found tag : κ} :
    tagOfMembers resolve (some found) (decodeMembers members) = .ok tag ↔
      occurrences "kind" members = [] ∧ found = tag := by
  induction members with
  | nil => simp [decodeMembers, tagOfMembers, occurrences]
  | cons member members ih =>
    obtain ⟨key, value⟩ := member
    rw [decodeMembers, decodeMember, tagOfMembers]
    by_cases hkey : key = "kind"
    · subst hkey
      simp [occurrences_cons_self]
    · rw [if_neg hkey, occurrences_cons_of_ne hkey, ih]

/-- The kind is found if one member names it, and no more than one. -/
theorem tagOfMembers_eq_ok {tag : κ} :
    tagOfMembers resolve none (decodeMembers members) = .ok tag ↔
      ∃ name, occurrences "kind" members = [("kind", .str name)] ∧ resolve name = .ok tag := by
  induction members with
  | nil => simp [decodeMembers, tagOfMembers, occurrences]
  | cons member members ih =>
    obtain ⟨key, value⟩ := member
    rw [decodeMembers, decodeMember, tagOfMembers]
    by_cases hkey : key = "kind"
    · subst hkey
      simp only [if_true, bind_eq_ok, tagOfMembers_found, occurrences_cons_self,
        List.cons.injEq, Prod.mk.injEq, true_and]
      constructor
      · rintro ⟨name, hvalue, found, hfound, hnone, rfl⟩
        exact ⟨name, ⟨decode_tag.mp hvalue, hnone⟩, hfound⟩
      · rintro ⟨name, ⟨hvalue, hnone⟩, htag⟩
        exact ⟨name, decode_tag.mpr hvalue, tag, htag, hnone, rfl⟩
    · rw [if_neg hkey, occurrences_cons_of_ne hkey, ih]

end Kinds

/-! ## Members -/

/-- The content of a field: that of the only member with its name, or its default if there is no
such member. -/
inductive FieldHolds (members : List (String × Value)) (field : Field)
    (content : field.type.Carrier) : Prop
  | missing (hnone : occurrences field.name members = []) (h : field.fallback = some content)
  | given {value : Value} (hvalue : occurrences field.name members = [(field.name, value)])
    (h : decode value field.type = .ok content)

/-- The contents of all fields. -/
def Filled (members : List (String × Value)) : (fields : List Field) → Values fields → Prop
  | [], () => True
  | field :: fields, (content, contents) =>
    FieldHolds members field content ∧ Filled members fields contents

section Contents

variable {members others : List (String × Value)}

theorem fieldHolds_missing {field : Field} {content : field.type.Carrier}
    (hnone : occurrences field.name members = []) :
    FieldHolds members field content ↔ field.fallback = some content := by
  constructor
  · rintro (⟨-, h⟩ | ⟨hvalue, -⟩)
    · exact h
    · rw [hnone] at hvalue
      cases hvalue
  · exact .missing hnone

theorem fieldHolds_given {field : Field} {content : field.type.Carrier} {value : Value}
    (hvalue : occurrences field.name members = [(field.name, value)]) :
    FieldHolds members field content ↔ decode value field.type = .ok content := by
  constructor
  · rintro (⟨hnone, -⟩ | ⟨hother, h⟩)
    · rw [hvalue] at hnone
      cases hnone
    · rw [hvalue] at hother
      cases hother
      exact h
  · exact .given hvalue

theorem fieldHolds_of_perm {field : Field} {content : field.type.Carrier}
    (hperm : (occurrences field.name members).Perm (occurrences field.name others))
    (h : FieldHolds members field content) : FieldHolds others field content := by
  cases h with
  | missing hnone h =>
    rw [hnone, List.nil_perm] at hperm
    exact .missing hperm h
  | given hvalue h =>
    rw [hvalue, List.singleton_perm] at hperm
    exact .given hperm.symm h

theorem fieldHolds_congr {field : Field} {content : field.type.Carrier}
    (hperm : (occurrences field.name members).Perm (occurrences field.name others)) :
    FieldHolds members field content ↔ FieldHolds others field content :=
  ⟨fieldHolds_of_perm hperm, fieldHolds_of_perm hperm.symm⟩

theorem filled_congr {fields : List Field} {contents : Values fields}
    (h : ∀ field ∈ fields, ∀ content,
      FieldHolds members field content ↔ FieldHolds others field content) :
    Filled members fields contents ↔ Filled others fields contents := by
  induction fields with
  | nil => exact Iff.rfl
  | cons field fields ih =>
    obtain ⟨content, contents⟩ := contents
    obtain ⟨hfield, hfields⟩ := List.forall_mem_cons.mp h
    exact and_congr (hfield content) (ih hfields)

/-- A member that no field is named for does not matter. -/
theorem filled_cons_of_notMem {key : String} {fields : List Field} {contents : Values fields}
    (h : key ∉ fields.map Field.name) (value : Value) (members : List (String × Value)) :
    Filled ((key, value) :: members) fields contents ↔ Filled members fields contents := by
  refine filled_congr fun field hfield content => fieldHolds_congr ?_
  have hname : key ≠ field.name := fun heq => h (heq ▸ List.mem_map_of_mem hfield)
  rw [occurrences_cons_of_ne hname]

end Contents

/-- What is in a slot before and after some members with its name. -/
inductive Receives (field : Field) :
    Option field.type.Carrier → List (String × Value) → Option field.type.Carrier → Prop
  | nothing (slot : Option field.type.Carrier) : Receives field slot [] slot
  | one {key : String} {value : Value} {content : field.type.Carrier}
    (h : decode value field.type = .ok content) :
    Receives field none [(key, value)] (some content)

namespace Slots

variable {field : Field} {fields : List Field} {members : List (String × Value)}

/-- A member goes past a slot with another name. -/
theorem place_of_ne {key : String} (h : key ≠ field.name)
    (value : Decoder) (slot : Option field.type.Carrier) (slots : Slots fields) :
    place key value (field :: fields) (slot, slots) = (do
      let slots ← place key value fields slots
      .ok (slot, slots)) := by
  rw [place.eq_def]
  exact if_neg (Ne.symm h)

theorem place_of_notMem {key : String} (h : key ∉ fields.map Field.name)
    (value : Decoder) (slots : Slots fields) : place key value fields slots = .ok slots := by
  induction fields with
  | nil => rfl
  | cons field fields ih =>
    obtain ⟨slot, slots⟩ := slots
    rw [List.map_cons, List.mem_cons, not_or] at h
    rw [place_of_ne h.1, ih h.2]
    rfl

theorem place_found {content : field.type.Carrier} (value : Decoder) (slots : Slots fields) :
    place field.name value (field :: fields) (some content, slots) =
      .error (.duplicateField field.name) := by
  rw [place, if_pos rfl]

theorem place_empty (value : Decoder) (slots : Slots fields) :
    place field.name value (field :: fields) (none, slots) = (do
      let read ← value field.type
      .ok (some read, slots)) := by
  rw [place, if_pos rfl]

/-- The first slot goes its own way, because no other field has its name. -/
theorem fill_cons_eq_ok (hname : field.name ∉ fields.map Field.name)
    {slot final : Option field.type.Carrier} {slots others : Slots fields} :
    fill (field :: fields) (slot, slots) (decodeMembers members) = .ok (final, others) ↔
      Receives field slot (occurrences field.name members) final ∧
        fill fields slots (decodeMembers members) = .ok others := by
  induction members generalizing slot slots with
  | nil =>
    simp only [decodeMembers, fill, occurrences, List.filter_nil, Except.ok.injEq, Prod.mk.injEq]
    refine and_congr_left fun _ => ⟨?_, ?_⟩
    · rintro rfl
      exact .nothing slot
    · rintro ⟨⟩
      rfl
  | cons member members ih =>
    obtain ⟨key, value⟩ := member
    rw [decodeMembers, decodeMember, fill, fill]
    by_cases hkey : key = field.name
    · subst hkey
      rw [place_of_notMem hname, occurrences_cons_self]
      cases slot with
      | some content =>
        rw [place_found]
        simp only [bind_eq_ok, reduceCtorEq, false_and, exists_false, false_iff, not_and]
        rintro ⟨⟩
      | none =>
        rw [place_empty]
        simp only [bind_eq_ok, Except.ok.injEq]
        constructor
        · rintro ⟨-, ⟨content, hdecode, rfl⟩, hfill⟩
          obtain ⟨hfirst, hmore⟩ := ih.mp hfill
          refine ⟨?_, slots, rfl, hmore⟩
          generalize occurrences field.name members = found at hfirst
          cases hfirst
          exact .one hdecode
        · rintro ⟨hfirst, _, rfl, hmore⟩
          generalize hfound : occurrences field.name members = found at hfirst
          cases hfirst with
          | @one _ _ content hdecode =>
            have hnothing : Receives field (some content) (occurrences field.name members)
                (some content) := hfound ▸ .nothing _
            exact ⟨_, ⟨content, hdecode, rfl⟩, ih.mpr ⟨hnothing, hmore⟩⟩
    · rw [place_of_ne hkey, occurrences_cons_of_ne hkey]
      simp only [bind_eq_ok, Except.ok.injEq]
      constructor
      · rintro ⟨-, ⟨placed, hplace, rfl⟩, hfill⟩
        obtain ⟨hfirst, hmore⟩ := ih.mp hfill
        exact ⟨hfirst, placed, hplace, hmore⟩
      · rintro ⟨hfirst, placed, hplace, hmore⟩
        exact ⟨(slot, placed), ⟨placed, hplace, rfl⟩, ih.mpr ⟨hfirst, hmore⟩⟩

theorem complete_cons_eq_ok {slot : Option field.type.Carrier} {slots : Slots fields}
    {content : field.type.Carrier} {contents : Values fields} :
    complete (field :: fields) (slot, slots) = .ok (content, contents) ↔
      slot.or field.fallback = some content ∧ complete fields slots = .ok contents := by
  rw [complete]
  cases slot.or field.fallback with
  | none => simp
  | some value =>
    simp only [bind_eq_ok, Except.ok.injEq, Prod.mk.injEq, Option.some.injEq]
    constructor
    · rintro ⟨_, hcomplete, rfl, rfl⟩
      exact ⟨rfl, hcomplete⟩
    · rintro ⟨rfl, hcomplete⟩
      exact ⟨contents, hcomplete, rfl, rfl⟩

theorem fill_nil (slots : Slots []) (members : List (String × Decoder)) :
    fill [] slots members = .ok slots := by
  induction members with
  | nil => rfl
  | cons member members ih => exact ih

/-- What a slot receives and its default decide the content of the field. -/
theorem receives_or_fallback {content : field.type.Carrier} :
    (∃ slot, Receives field none (occurrences field.name members) slot ∧
      slot.or field.fallback = some content) ↔ FieldHolds members field content := by
  generalize hfound : occurrences field.name members = found
  constructor
  · rintro ⟨slot, hreceives, hslot⟩
    cases hreceives with
    | nothing => exact .missing hfound hslot
    | @one key value other hdecode =>
      have hkey : (key, value) ∈ occurrences field.name members := by simp [hfound]
      have hname : key = field.name := by simpa [occurrences] using (List.mem_filter.mp hkey).2
      obtain rfl : other = content := Option.some.inj hslot
      exact .given (hname ▸ hfound) hdecode
  · rintro (⟨hnone, hslot⟩ | ⟨hvalue, hdecode⟩)
    · rw [hfound] at hnone
      subst hnone
      exact ⟨none, .nothing none, hslot⟩
    · rw [hfound] at hvalue
      subst hvalue
      exact ⟨some content, .one hdecode, rfl⟩

/-- Filling the slots and completing them gives the contents of the fields. -/
theorem complete_fill_eq_ok (hnames : (fields.map Field.name).Nodup) {contents : Values fields} :
    (∃ slots, fill fields (empty fields) (decodeMembers members) = .ok slots ∧
      complete fields slots = .ok contents) ↔ Filled members fields contents := by
  induction fields with
  | nil =>
    have hfill := fill_nil () (decodeMembers members)
    exact iff_of_true ⟨(), hfill, rfl⟩ trivial
  | cons field fields ih =>
    obtain ⟨content, contents⟩ := contents
    rw [List.map_cons, List.nodup_cons] at hnames
    rw [Filled, ← ih hnames.2, ← receives_or_fallback, empty]
    constructor
    · rintro ⟨⟨slot, slots⟩, hfill, hcomplete⟩
      obtain ⟨hreceives, hfill⟩ := (fill_cons_eq_ok hnames.1).mp hfill
      obtain ⟨hslot, hcomplete⟩ := complete_cons_eq_ok.mp hcomplete
      exact ⟨⟨slot, hreceives, hslot⟩, slots, hfill, hcomplete⟩
    · rintro ⟨⟨slot, hreceives, hslot⟩, slots, hfill, hcomplete⟩
      exact ⟨(slot, slots), (fill_cons_eq_ok hnames.1).mpr ⟨hreceives, hfill⟩,
        complete_cons_eq_ok.mpr ⟨hslot, hcomplete⟩⟩

end Slots

namespace Shape

variable {α : Type} {shape : Shape α} {record : α}

/-- A record is read from an object if all its fields have contents. -/
theorem ofMembers_eq_ok (hnames : (shape.fields.map Field.name).Nodup)
    {members : List (String × Value)} :
    shape.ofMembers (decodeMembers members) = .ok record ↔
      ∃ contents, Filled members shape.fields contents ∧ shape.build contents = record := by
  simp only [ofMembers, bind_eq_ok, Except.ok.injEq, ← Slots.complete_fill_eq_ok hnames]
  constructor
  · rintro ⟨slots, hfill, contents, hcomplete, hbuild⟩
    exact ⟨contents, ⟨slots, hfill, hcomplete⟩, hbuild⟩
  · rintro ⟨contents, ⟨slots, hfill, hcomplete⟩, hbuild⟩
    exact ⟨slots, hfill, contents, hcomplete, hbuild⟩

end Shape

/-! ## Items -/

/-- The contents of the fields, taken from a list in order and then from the defaults. -/
def Taken : (fields : List Field) → List Value → Values fields → Prop
  | [], items, () => items = []
  | field :: fields, [], (content, contents) =>
    field.fallback = some content ∧ Taken fields [] contents
  | field :: fields, item :: items, (content, contents) =>
    decode item field.type = .ok content ∧ Taken fields items contents

namespace Shape

theorem takeItems_eq_ok {title : String} {count index : Nat} {fields : List Field}
    {items : List Value} {contents : Values fields} :
    takeItems title count index fields (decodeItems items) = .ok (contents, []) ↔
      Taken fields items contents := by
  induction fields generalizing index items with
  | nil => cases items <;> simp [takeItems, Taken, decodeItems]
  | cons field fields ih =>
    obtain ⟨content, contents⟩ := contents
    cases items with
    | nil =>
      rw [decodeItems, takeItems, Taken]
      cases field.fallback with
      | none => simp
      | some value =>
        simp only [bind_eq_ok, Except.ok.injEq, Prod.mk.injEq, Option.some.injEq]
        constructor
        · rintro ⟨⟨others, rest⟩, htake, ⟨rfl, rfl⟩, rfl⟩
          exact ⟨rfl, ih.mp htake⟩
        · rintro ⟨rfl, htaken⟩
          exact ⟨(contents, []), ih.mpr htaken, ⟨rfl, rfl⟩, rfl⟩
    | cons item items =>
      rw [decodeItems, takeItems, Taken]
      simp only [bind_eq_ok, Except.ok.injEq, Prod.mk.injEq]
      constructor
      · rintro ⟨value, hvalue, ⟨others, rest⟩, htake, ⟨rfl, rfl⟩, rfl⟩
        exact ⟨hvalue, ih.mp htake⟩
      · rintro ⟨hvalue, htaken⟩
        exact ⟨content, hvalue, (contents, []), ih.mpr htaken, ⟨rfl, rfl⟩, rfl⟩

/-- A record is read from a list if its items are the contents of the first fields, and the others
have defaults. -/
theorem ofItems_eq_ok {α : Type} {shape : Shape α} {record : α} {items : List Value} :
    shape.ofItems (decodeItems items) = .ok record ↔
      ∃ contents, Taken shape.fields items contents ∧ shape.build contents = record := by
  simp only [ofItems, bind_eq_ok]
  constructor
  · rintro ⟨⟨contents, rest⟩, htake, hrest⟩
    split at hrest
    · rename_i hempty
      obtain rfl : rest = [] := List.isEmpty_iff.mp hempty
      exact ⟨contents, takeItems_eq_ok.mp htake, Except.ok.inj hrest⟩
    · cases hrest
  · rintro ⟨contents, htaken, rfl⟩
    exact ⟨(contents, []), takeItems_eq_ok.mpr htaken, rfl⟩

end Shape

end ShaderScript.Wire
