import ShaderScript.Proofs.Json.Loops

/-!
# Values

A value can be written in many ways: blanks may stand between its tokens, and strings and numbers
have several spellings. However it is written, the value is read back, if no more brackets are open
at a time than the reader allows. If there are more, the text is refused for that reason and no
other. The writer chooses one of these ways.
-/

namespace ShaderScript.Json

namespace Value

/-- A value that has no number in it. -/
inductive Plain : Value → Prop
  | null : Plain .null
  | bool (value : Bool) : Plain (.bool value)
  | str (value : String) : Plain (.str value)
  | arr {items : List Value} (h : ∀ item ∈ items, Plain item) : Plain (.arr items)
  | obj {members : List (String × Value)} (h : ∀ member ∈ members, Plain member.2) :
    Plain (.obj members)

mutual

/-- The greatest number of brackets that are open at the same time in the value. -/
def height : Value → Nat
  | .arr items => heightItems items + 1
  | .obj members => heightMembers members + 1
  | .null | .bool _ | .num _ | .str _ => 0

def heightItems : List Value → Nat
  | [] => 0
  | item :: items => max item.height (heightItems items)

def heightMembers : List (String × Value) → Nat
  | [] => 0
  | member :: members => max (heightMember member) (heightMembers members)

def heightMember : String × Value → Nat
  | (_, value) => value.height

end

/-- The greatest height among some entries. -/
def tallest {β : Type} (height : β → Nat) (entries : List β) : Nat :=
  (entries.map height).foldr max 0

theorem tallest_le {β : Type} {height : β → Nat} {entries : List β} {bound : Nat} :
    tallest height entries ≤ bound ↔ ∀ entry ∈ entries, height entry ≤ bound := by
  induction entries with
  | nil => simp [tallest]
  | cons entry entries ih =>
    rw [List.forall_mem_cons, ← ih]
    exact Nat.max_le

theorem le_tallest {β : Type} (height : β → Nat) {entries : List β} {entry : β}
    (h : entry ∈ entries) : height entry ≤ tallest height entries :=
  tallest_le.mp (Nat.le_refl _) entry h

theorem tallest_congr {β : Type} {height others : β → Nat} {entries : List β}
    (h : ∀ entry ∈ entries, height entry = others entry) :
    tallest height entries = tallest others entries := by
  rw [tallest, List.map_congr_left h, tallest]

theorem tallest_map {β γ : Type} {height : γ → Nat} (f : β → γ) (entries : List β) :
    tallest height (entries.map f) = tallest (fun entry => height (f entry)) entries := by
  rw [tallest, List.map_map]
  rfl

theorem height_arr (items : List Value) : (arr items).height = tallest height items + 1 := by
  have hitems : heightItems items = tallest height items := by
    induction items with
    | nil => rfl
    | cons item items ih => rw [heightItems, ih]; rfl
  rw [height, hitems]

theorem height_obj (members : List (String × Value)) :
    (obj members).height = tallest (fun member => member.2.height) members + 1 := by
  have hmembers : heightMembers members = tallest (fun member => member.2.height) members := by
    induction members with
    | nil => rfl
    | cons member members ih => rw [heightMembers, heightMember, ih]; rfl
  rw [height, hmembers]

theorem height_arr_le {items : List Value} {bound : Nat} :
    (arr items).height ≤ bound + 1 ↔ ∀ item ∈ items, item.height ≤ bound := by
  rw [height_arr, Nat.succ_le_succ_iff, tallest_le]

theorem height_obj_le {members : List (String × Value)} {bound : Nat} :
    (obj members).height ≤ bound + 1 ↔ ∀ member ∈ members, member.2.height ≤ bound := by
  rw [height_obj, Nat.succ_le_succ_iff, tallest_le]

end Value

/-! ## The texts of a value -/

/-- The ways to write a value. -/
inductive Spells : Value → List Char → Prop
  | null : Spells .null "null".toList
  | true : Spells (.bool true) "true".toList
  | false : Spells (.bool false) "false".toList
  | str {content : String} {text : List Char} (h : Spelled content.toList text) :
    Spells (.str content) ('"' :: (text ++ ['"']))
  | num {number : Number} {text : List Char} (h : Denotes number text) : Spells (.num number) text
  | arr {entries : List (Padded (List Char × Value))} {final : Gap}
    (h : ∀ padded ∈ entries, Spells padded.entry.2 padded.entry.1) :
    Spells (.arr (entries.map fun padded => padded.entry.2))
      ('[' :: bracketedText ']' Prod.fst final entries)
  | obj {entries : List (Padded (MemberText × String × Value))} {final : Gap}
    (hkeys : ∀ padded ∈ entries, Spelled padded.entry.2.1.toList padded.entry.1.key)
    (h : ∀ padded ∈ entries, Spells padded.entry.2.2 padded.entry.1.value) :
    Spells (.obj (entries.map fun padded => padded.entry.2))
      ('\x7b' :: bracketedText '\x7d' (fun entry => entry.1.chars) final entries)

/-- The texts of values of any kind: a number need not be in range, and a string may write half of a
pair. -/
inductive JsonText : List Char → Prop
  | word {text : List Char} (h : text ∈ ["null".toList, "true".toList, "false".toList]) :
    JsonText text
  | str {text : List Char} (h : StringText text) : JsonText ('"' :: (text ++ ['"']))
  | num {text : List Char} (h : Numeral text) : JsonText text
  | arr {β : Type} {write : β → List Char} {entries : List (Padded β)} {final : Gap}
    (h : ∀ padded ∈ entries, JsonText (write padded.entry)) :
    JsonText ('[' :: bracketedText ']' write final entries)
  | obj {β : Type} {layout : β → MemberText} {entries : List (Padded β)} {final : Gap}
    (hkeys : ∀ padded ∈ entries, StringText (layout padded.entry).key)
    (h : ∀ padded ∈ entries, JsonText (layout padded.entry).value) :
    JsonText ('\x7b' :: bracketedText '\x7d' (fun entry => (layout entry).chars) final entries)

theorem Spells.jsonText {value : Value} {text : List Char} (h : Spells value text) :
    JsonText text := by
  induction h with
  | null | true | false => exact .word (by decide)
  | str h => exact .str h.stringText
  | num h => exact .num h.numeral
  | arr h ih => exact .arr ih
  | obj hkeys h ih => exact .obj (fun padded hp => (hkeys padded hp).stringText) ih

theorem JsonText.opens {text : List Char} (h : JsonText text) : Opens text := by
  cases h with
  | word h =>
    simp only [List.mem_cons, List.not_mem_nil, or_false] at h
    rcases h with rfl | rfl | rfl <;> exact ⟨_, _, rfl, by decide⟩
  | str h => exact ⟨'"', _, rfl, by decide⟩
  | num h =>
    obtain ⟨c, more, rfl, hblank, hbracket⟩ := h.first
    simp only [List.mem_cons, not_or] at hbracket
    exact ⟨c, more, rfl, hblank, hbracket.2.1, hbracket.2.2.2.1⟩
  | arr h => exact ⟨'[', _, rfl, by decide⟩
  | obj hkeys h => exact ⟨'\x7b', _, rfl, by decide⟩

/-! ## Reading a value -/

section Values

variable {limit bound : Nat}

/-- Blanks before a value do not matter. -/
theorem readValue_gap (gap : Gap) (text : List Char) :
    readValue limit bound (gap.chars ++ text) = readValue limit bound text := by
  cases bound <;> simp only [readValue, skipBlanks_gap]

theorem readValue_scalar {c : Char} (rest : List Char) (hblank : isBlank c = false)
    (hlist : c ≠ '[') (hobject : c ≠ '\x7b') :
    readValue limit bound (c :: rest) =
      (readScalar? (c :: rest)).getD (refuseNext .expectedValue (c :: rest)) := by
  cases bound <;>
  · rw [readValue, skipBlanks_cons hblank]
    split
    · rename_i heq
      cases heq
    · rename_i heq
      exact absurd (List.cons.inj heq).1 hlist
    · rename_i heq
      exact absurd (List.cons.inj heq).1 hobject
    · rfl

/-- The reader reads the value after the key of the member, and adds the member to those before
it. -/
def AddsMember
    (reader : List (String × Value) → String → List Char →
      Except Refusal (List (String × Value) × List Char))
    (sound : List (MemberText × String × Value) → MemberText × String × Value → Prop) (bound : Nat)
    (entry : MemberText × String × Value) : Prop :=
  ReadsMember reader (fun entry => entry.2.1) Prod.fst (List.map Prod.snd) sound
    (fun entry => entry.2.2.height ≤ bound) entry

theorem addsMember_readMember {entry : MemberText × String × Value}
    (h : ∀ {rest}, Delimited rest → Reading (entry.2.2.height ≤ bound)
      (readValue limit bound (entry.1.value ++ rest)) (entry.2.2, rest)) :
    AddsMember (readMember (readValue limit bound)) (fun _ _ => True) bound entry := by
  intro before rest hrest
  have hvalue := h hrest
  rw [← readValue_gap entry.1.after] at hvalue
  rw [readMember, MemberText.readColon_tail, List.map_append]
  refine (Verdict.of_reading hvalue).map ?_
  rfl

theorem throughout_true {β : Type} (before entries : List β) :
    Throughout (fun _ _ => True) before entries := by
  induction entries generalizing before with
  | nil => trivial
  | cons entry entries ih => exact ⟨trivial, ih _⟩

/-- However a value is written, it is read back or refused as too deep. -/
theorem readValue_spelled {value : Value} {text : List Char} (h : Spells value text)
    (hlimit : text.length ≤ limit) {rest : List Char} (hrest : Delimited rest) :
    Reading (value.height ≤ bound) (readValue limit bound (text ++ rest)) (value, rest) := by
  -- One bracket further in, the reader has one bracket less to open.
  induction h generalizing bound rest with
  | null =>
    refine (Reading.of_ok ?_).congr (by simp [Value.height])
    exact readValue_scalar _ (by decide) (by decide) (by decide)
  | true =>
    refine (Reading.of_ok ?_).congr (by simp [Value.height])
    exact readValue_scalar _ (by decide) (by decide) (by decide)
  | false =>
    refine (Reading.of_ok ?_).congr (by simp [Value.height])
    exact readValue_scalar _ (by decide) (by decide) (by decide)
  | str h =>
    refine (Reading.of_ok ?_).congr (by simp [Value.height])
    rw [List.cons_append, readValue_scalar _ (by decide) (by decide) (by decide), readScalar?,
      List.append_assoc, List.cons_append, List.nil_append, readString_spelled h]
    rfl
  | num h =>
    refine (Reading.of_ok ?_).congr (by simp [Value.height])
    have hread := readScalar?_denotes h hrest
    obtain ⟨c, more, rfl, hblank, hbracket⟩ := h.numeral.first
    simp only [List.mem_cons, not_or] at hbracket
    rw [List.cons_append, readValue_scalar _ hblank hbracket.1 hbracket.2.2.1, ← List.cons_append,
      hread]
    rfl
  | @arr entries final hentries ih =>
    rw [List.length_cons] at hlimit
    rw [List.cons_append]
    cases bound with
    | zero =>
      refine ⟨fun hfits => by simp [Value.height] at hfits, fun _ => ?_⟩
      exact ⟨_, by rw [readValue, skipBlanks_cons (by decide)]; rfl⟩
    | succ bound =>
      have hread : ∀ padded ∈ entries, padded.entry.1.length ≤ limit →
          ReadsItem (readValue limit bound) Prod.fst Prod.snd (fun _ => True)
            (fun entry => entry.2.height ≤ bound) padded.entry :=
        fun padded hp hl =>
          ⟨(hentries padded hp).jsonText.opens, fun hrest => .of_reading (ih padded hp hl hrest)⟩
      have hloop := (readItems_text hread (Nat.le_of_succ_le hlimit) rest).reading (by simp)
      rw [Value.height_arr_le, List.forall_mem_map, readValue, skipBlanks_cons (by decide)]
      exact hloop.map rfl
  | @obj entries final hkeys hentries ih =>
    rw [List.length_cons] at hlimit
    rw [List.cons_append]
    cases bound with
    | zero =>
      refine ⟨fun hfits => by simp [Value.height] at hfits, fun _ => ?_⟩
      exact ⟨_, by rw [readValue, skipBlanks_cons (by decide)]; rfl⟩
    | succ bound =>
      have hread : ∀ padded ∈ entries, padded.entry.1.value.length ≤ limit →
          AddsMember (readMember (readValue limit bound)) (fun _ _ => True) bound padded.entry :=
        fun padded hp hl => addsMember_readMember (ih padded hp hl)
      have hloop := (readMembers_text hkeys hread (Nat.le_of_succ_le hlimit) rest).reading
        (throughout_true _ _)
      rw [Value.height_obj_le, List.forall_mem_map, readValue, skipBlanks_cons (by decide)]
      rw [List.map_map] at hloop
      exact hloop.map rfl

end Values

/-! ## The writer -/

/-- No blanks at all. -/
def Gap.empty : Gap :=
  ⟨[], nofun⟩

/-- The beginning of a line. -/
def Gap.line (depth : Nat) : Gap where
  chars := newLine depth
  blank := by simp [newLine, isBlank]

/-- An item on a line of its own. -/
def writtenItem (depth : Nat) (item : Value) : Padded (List Char × Value) :=
  ⟨.line depth, (writeValue depth item, item), .empty⟩

/-- A member on a line of its own. -/
def writtenMember (depth : Nat) (member : String × Value) :
    Padded (MemberText × String × Value) where
  before := .line depth
  entry := (⟨member.1.toList.flatMap escapeChar, .empty, ⟨[' '], by simp [isBlank]⟩,
    writeValue depth member.2⟩, member)
  after := .empty

theorem chars_writtenMember (depth : Nat) (member : String × Value) :
    (writtenMember depth member).entry.1.chars = writeMember depth member := by
  obtain ⟨key, value⟩ := member
  simp [writtenMember, MemberText.chars, MemberText.tail, Gap.empty, writeMember, writeString]

theorem moreText_writtenItem (depth : Nat) (final : Gap) (items : List Value) :
    moreText ']' Prod.fst final (items.map (writtenItem depth)) =
      writeMoreItems depth items ++ final.chars ++ [']'] := by
  induction items with
  | nil => simp [moreText, writeMoreItems]
  | cons item items ih =>
    simp [moreText, writeMoreItems, Padded.onto, ih, writtenItem, Gap.line, Gap.empty]

theorem moreText_writtenMember (depth : Nat) (final : Gap) (members : List (String × Value)) :
    moreText '\x7d' (fun entry => entry.1.chars) final (members.map (writtenMember depth)) =
      writeMoreMembers depth members ++ final.chars ++ ['\x7d'] := by
  induction members with
  | nil => simp [moreText, writeMoreMembers]
  | cons member members ih =>
    rw [List.map_cons, moreText, Padded.onto, ih, chars_writtenMember, writeMoreMembers]
    simp [writtenMember, Gap.line, Gap.empty]

theorem writeValue_arr (depth : Nat) (items : List Value) :
    ∃ final, writeValue depth (.arr items) =
      '[' :: bracketedText ']' Prod.fst final (items.map (writtenItem (depth + 1))) := by
  cases items with
  | nil => exact ⟨.empty, by simp [writeValue, bracketedText, Gap.empty]⟩
  | cons first more =>
    refine ⟨.line depth, ?_⟩
    rw [List.map_cons, bracketedText, Padded.onto, moreText_writtenItem]
    simp [writeValue, writtenItem, Gap.line, Gap.empty]

theorem writeValue_obj (depth : Nat) (members : List (String × Value)) :
    ∃ final, writeValue depth (.obj members) =
      '\x7b' :: bracketedText '\x7d' (fun entry => entry.1.chars) final
        (members.map (writtenMember (depth + 1))) := by
  cases members with
  | nil => exact ⟨.empty, by simp [writeValue, bracketedText, Gap.empty]⟩
  | cons first more =>
    refine ⟨.line depth, ?_⟩
    rw [List.map_cons, bracketedText, Padded.onto, moreText_writtenMember, chars_writtenMember]
    simp [writeValue, writtenMember, Gap.line, Gap.empty]

/-- What the writer writes for a value without numbers is one of its texts. -/
theorem spells_writeValue {value : Value} (h : value.Plain) (depth : Nat) :
    Spells value (writeValue depth value) := by
  induction h generalizing depth with
  | null =>
    rw [writeValue]
    exact .null
  | bool value =>
    cases value
    · rw [writeValue]
      exact .false
    · rw [writeValue]
      exact .true
  | str text =>
    rw [writeValue, writeString, List.cons_append]
    exact .str (spelled_flatMap text.toList)
  | @arr items _ ih =>
    obtain ⟨final, htext⟩ := writeValue_arr depth items
    have hitems : (items.map (writtenItem (depth + 1))).map (fun padded => padded.entry.2) =
        items := by
      rw [List.map_map]
      exact List.map_id items
    have hentries : ∀ padded ∈ items.map (writtenItem (depth + 1)),
        Spells padded.entry.2 padded.entry.1 :=
      List.forall_mem_map.mpr fun item hi => ih item hi (depth + 1)
    have hspelled := @Spells.arr _ final hentries
    rw [hitems] at hspelled
    rw [htext]
    exact hspelled
  | @obj members _ ih =>
    obtain ⟨final, htext⟩ := writeValue_obj depth members
    have hmembers : (members.map (writtenMember (depth + 1))).map (fun padded => padded.entry.2) =
        members := by
      rw [List.map_map]
      exact List.map_id members
    have hkeys : ∀ padded ∈ members.map (writtenMember (depth + 1)),
        Spelled padded.entry.2.1.toList padded.entry.1.key :=
      List.forall_mem_map.mpr fun member _ => spelled_flatMap member.1.toList
    have hentries : ∀ padded ∈ members.map (writtenMember (depth + 1)),
        Spells padded.entry.2.2 padded.entry.1.value :=
      List.forall_mem_map.mpr fun member hm => ih member hm (depth + 1)
    have hspelled := @Spells.obj _ final hkeys hentries
    rw [hmembers] at hspelled
    rw [htext]
    exact hspelled

end ShaderScript.Json
