import ShaderScript.Proofs.Json.Values
import ShaderScript.Proofs.Wire.Layouts
import ShaderScript.Wire.Load

/-!
# What nodes are read as

A node is read with an eye on its kind: a value that names none is refused at once, and any other is
decoded. However the nodes of a body are written, they are read as what the decoder makes of their
values, and refused if it makes nothing of one of them or if brackets are nested too deep.
-/

namespace ShaderScript.Wire

open ShaderScript.Json

variable {limit bound : Nat}

/-! ## Kinds -/

theorem rejectValue_error {α : Type} (expected : String) (text : List Char) :
    ∃ refusal, (rejectValue expected text : Except Refusal α) = .error refusal := by
  unfold rejectValue
  split
  · exact ⟨_, rfl⟩
  · exact ⟨_, rfl⟩
  · cases (readScalar? text).getD (refuseNext .expectedValue text) with
    | error refusal => exact ⟨refusal, rfl⟩
    | ok read => exact ⟨_, rfl⟩

theorem readTag_gap (gap : Gap) (text : List Char) :
    readTag (gap.chars ++ text) = readTag text := by
  simp only [readTag, skipBlanks_gap]

theorem readTag_str {name : String} {text : List Char} (h : Spells (.str name) text)
    (rest : List Char) : readTag (text ++ rest) = .ok (name, rest) := by
  cases h with
  | str h =>
    rw [List.cons_append, List.append_assoc, readTag, skipBlanks_cons (by decide)]
    exact readString_spelled h rest

/-- Only strings start with a quote. -/
theorem spells_quote {value : Value} {text rest quoted : List Char} (h : Spells value text)
    (heq : text ++ rest = '"' :: quoted) : ∃ name, value = .str name := by
  cases h with
  | null | true | false | arr | obj => cases heq
  | str h => exact ⟨_, rfl⟩
  | num h =>
    obtain ⟨c, more, rfl, -, hquote⟩ := h.numeral.first
    simp only [List.mem_cons, not_or] at hquote
    exact absurd (List.cons.inj heq).1 hquote.2.2.2.2.1

theorem readTag_other {value : Value} {text : List Char} (h : Spells value text)
    (hvalue : ∀ name, value ≠ .str name) (rest : List Char) :
    ∃ refusal, readTag (text ++ rest) = .error refusal := by
  rw [readTag, (h.jsonText.opens.append rest).skipBlanks]
  split
  · exact ⟨_, rfl⟩
  · rename_i heq
    obtain ⟨name, rfl⟩ := spells_quote h heq
    exact absurd rfl (hvalue name)
  · exact rejectValue_error _ _

/-- If the entry is a kind, then it is the first one, and a string. -/
abbrev NamesKind : List (MemberText × String × Value) → MemberText × String × Value → Prop :=
  FirstOf (fun entry => entry.2.1) "kind" fun entry => ∃ name, entry.2.2 = .str name

theorem any_kind {entries : List (MemberText × String × Value)} :
    ((entries.map Prod.snd).any fun member => member.1 == "kind") = true ↔
      ¬ ∀ entry ∈ entries, entry.2.1 ≠ "kind" := by
  simp

theorem addsMember_readNodeMember {entry : MemberText × String × Value}
    (h : Spells entry.2.2 entry.1.value) (hlimit : entry.1.value.length ≤ limit) :
    AddsMember (readNodeMember limit bound) NamesKind bound entry := by
  intro before rest hrest
  rw [readNodeMember]
  obtain ⟨layout, key, value⟩ := entry
  by_cases hkey : key = "kind"
  · subst hkey
    rw [if_pos rfl, MemberText.readColon_tail]
    by_cases hbefore : ∀ other ∈ before, other.2.1 ≠ "kind"
    · rw [if_neg (fun hany => any_kind.mp hany hbefore)]
      by_cases hvalue : ∃ name, value = .str name
      · obtain ⟨name, rfl⟩ := hvalue
        refine (Verdict.of_ok ?_).congr ?_ fun _ => by simp [Value.height]
        · simp only [bind, Except.bind, readTag_gap, readTag_str h, List.map_append, List.map_cons,
            List.map_nil]
        · exact iff_of_true trivial fun _ => ⟨hbefore, name, rfl⟩
      · obtain ⟨refusal, herror⟩ := readTag_other h (fun name hname => hvalue ⟨name, hname⟩) rest
        refine .of_error (fun hsound => hvalue (hsound rfl).2) ⟨refusal, ?_⟩
        simp only [bind, Except.bind, readTag_gap, herror]
    · rw [if_pos (any_kind.mpr hbefore)]
      exact .of_error (fun hsound => hbefore (hsound rfl).1) ⟨_, rfl⟩
  · rw [if_neg hkey]
    have hread : AddsMember (readMember (readValue limit bound)) (fun _ _ => True) bound
        (layout, key, value) := addsMember_readMember (readValue_spelled h hlimit)
    exact (hread before hrest).congr (iff_of_true trivial fun heq => absurd heq hkey)
      fun _ => Iff.rfl

/-! ## Nodes -/

/-- The value names a kind: as its first item, or in the one member for it. -/
inductive Tagged : Value → Prop
  | arr (name : String) (items : List Value) : Tagged (.arr (.str name :: items))
  | obj {members : List (String × Value)} {name : String}
    (h : occurrences "kind" members = [("kind", .str name)]) : Tagged (.obj members)

/-- What does not start with a bracket is no node. -/
theorem readNodeValue_other {c : Char} (rest : List Char) (hblank : isBlank c = false)
    (hlist : c ≠ '[') (hobject : c ≠ '\x7b') :
    ∃ refusal, readNodeValue limit bound (c :: rest) = .error refusal := by
  rw [readNodeValue, skipBlanks_cons hblank]
  split
  · exact ⟨_, rfl⟩
  · rename_i heq
    exact absurd (List.cons.inj heq).1 hlist
  · rename_i heq
    exact absurd (List.cons.inj heq).1 hobject
  · exact rejectValue_error _ _

theorem readNodeValue_list {text : List Char} (h : Opens text) (gap : Gap) :
    readNodeValue limit bound ('[' :: (gap.chars ++ text)) = (do
      let (name, rest) ← readTag text
      let (items, rest) ← readMoreItems (readValue limit bound) limit rest
      .ok (.arr (.str name :: items), rest)) := by
  rw [readNodeValue, skipBlanks_cons (by decide)]
  simp only [skipBlanks_gap, h.skipBlanks]
  obtain ⟨c, rest, rfl, -, hc, -⟩ := h
  split
  · rename_i heq
    cases heq
  · rename_i heq
    exact absurd (List.cons.inj heq).1 hc
  · rfl

theorem readNodeValue_arr {entries : List (Padded (List Char × Value))} {final : Gap}
    (h : ∀ padded ∈ entries, Spells padded.entry.2 padded.entry.1)
    (hlimit : (bracketedText ']' Prod.fst final entries).length ≤ limit) (rest : List Char) :
    Verdict (Tagged (.arr (entries.map fun padded => padded.entry.2)))
      ((Value.arr (entries.map fun padded => padded.entry.2)).height ≤ bound + 1)
      (readNodeValue limit bound ('[' :: (bracketedText ']' Prod.fst final entries ++ rest)))
      (.arr (entries.map fun padded => padded.entry.2), rest) := by
  cases entries with
  | nil =>
    refine .of_error (fun htagged => nomatch htagged) ?_
    rw [readNodeValue, skipBlanks_cons (by decide), bracketedText, List.append_assoc]
    simp only [skipBlanks_gap]
    exact ⟨_, rfl⟩
  | cons first more =>
    obtain ⟨hfirst, hmore⟩ := List.forall_mem_cons.mp h
    obtain ⟨hcount, hlength⟩ := length_bracketedText ']' Prod.fst final (first :: more)
    have hopens := hfirst.jsonText.opens.append
      (first.after.chars ++ (moreText ']' Prod.fst final more ++ rest))
    rw [bracketedText, Padded.onto_append, Padded.onto, readNodeValue_list hopens, List.map_cons]
    by_cases hvalue : ∃ name, first.entry.2 = .str name
    · obtain ⟨name, hname⟩ := hvalue
      have hread : ∀ padded ∈ more, ReadsItem (readValue limit bound) Prod.fst Prod.snd
          (fun _ => True) (fun entry => entry.2.height ≤ bound) padded.entry := by
        intro padded hp
        have hl := Nat.le_trans (hlength padded (List.mem_cons_of_mem _ hp)) hlimit
        exact ⟨(hmore padded hp).jsonText.opens,
          fun hrest => .of_reading (readValue_spelled (hmore padded hp) hl hrest)⟩
      have hloop : Verdict _ _ (readMoreItems (readValue limit bound) limit
          (moreText ']' Prod.fst final more ++ rest)) _ :=
        readMoreItems_text hread (Nat.le_trans hcount hlimit) rest
      rw [← readMoreItems_gap first.after] at hloop
      rw [hname] at hfirst
      rw [hname, readTag_str hfirst]
      have hlist : Verdict _ _ (readMoreItems (readValue limit bound) limit
          (first.after.chars ++ (moreText ']' Prod.fst final more ++ rest)) >>=
            fun (items, rest) => .ok (.arr (.str name :: items), rest))
          (Value.arr (.str name :: more.map fun padded => padded.entry.2), rest) := hloop.map rfl
      refine hlist.congr (iff_of_true (by simp) (.arr name _)) fun _ => ?_
      rw [Value.height_arr_le, List.forall_mem_cons, List.forall_mem_map, Value.height,
        and_iff_right (Nat.zero_le bound)]
    · obtain ⟨refusal, herror⟩ :=
        readTag_other hfirst (fun name hname => hvalue ⟨name, hname⟩) _
      refine .of_error (fun htagged => ?_) ⟨refusal, by rw [herror]; rfl⟩
      generalize first.entry.2 = value at htagged hvalue
      cases htagged
      exact hvalue ⟨_, rfl⟩

theorem throughout_namesKind {entries : List (MemberText × String × Value)} :
    (Throughout NamesKind [] entries ∧ occurrences "kind" (entries.map Prod.snd) ≠ []) ↔
      Tagged (.obj (entries.map Prod.snd)) := by
  have hkinds : occurrences "kind" (entries.map Prod.snd) =
      (entries.filter fun entry => entry.2.1 = "kind").map Prod.snd := by
    rw [occurrences, List.filter_map]
    rfl
  rw [throughout_firstOf, hkinds, Ne, List.map_eq_nil_iff]
  constructor
  · rintro ⟨hnone | ⟨-, ⟨layout, key, value⟩, hone, name, hname⟩, hkind⟩
    · exact absurd hnone hkind
    · have hkey : key = "kind" := by
        have hmem : (layout, key, value) ∈ entries.filter fun entry => entry.2.1 = "kind" := by
          rw [hone]
          exact List.mem_singleton_self _
        simpa using (List.mem_filter.mp hmem).2
      subst hkey
      exact .obj (by rw [hkinds, hone, ← hname]; rfl)
  · rintro (_ | ⟨hone⟩)
    rw [hkinds, List.map_eq_singleton_iff] at hone
    obtain ⟨entry, hone, hentry⟩ := hone
    exact ⟨.inr ⟨by simp, entry, hone, _, congrArg Prod.snd hentry⟩, by simp [hone]⟩

/-- An object is a node only if it names a kind. -/
theorem requireKind (members : List (String × Value)) (rest : List Char) :
    Verdict (occurrences "kind" members ≠ []) True
      (if members.any fun member => member.1 == "kind" then .ok (Value.obj members, rest)
      else reject (.missingField "kind") rest) (Value.obj members, rest) := by
  have hany : (members.any fun member => member.1 == "kind") = true ↔
      occurrences "kind" members ≠ [] := by simp [occurrences]
  by_cases hkind : occurrences "kind" members ≠ []
  · rw [if_pos (hany.mpr hkind)]
    exact (Verdict.of_ok rfl).congr (iff_of_true trivial hkind) fun _ => Iff.rfl
  · rw [if_neg (mt hany.mp hkind)]
    exact .of_error hkind ⟨_, rfl⟩

theorem readNodeValue_obj {entries : List (Padded (MemberText × String × Value))} {final : Gap}
    (hkeys : ∀ padded ∈ entries, Spelled padded.entry.2.1.toList padded.entry.1.key)
    (h : ∀ padded ∈ entries, Spells padded.entry.2.2 padded.entry.1.value)
    (hlimit : (bracketedText '\x7d' (fun entry => entry.1.chars) final entries).length ≤ limit)
    (rest : List Char) :
    Verdict (Tagged (.obj (entries.map fun padded => padded.entry.2)))
      ((Value.obj (entries.map fun padded => padded.entry.2)).height ≤ bound + 1)
      (readNodeValue limit bound
        ('\x7b' :: (bracketedText '\x7d' (fun entry => entry.1.chars) final entries ++ rest)))
      (.obj (entries.map fun padded => padded.entry.2), rest) := by
  have hread : ∀ padded ∈ entries, padded.entry.1.value.length ≤ limit →
      AddsMember (readNodeMember limit bound) NamesKind bound padded.entry :=
    fun padded hp hl => addsMember_readNodeMember (h padded hp) hl
  have hloop := readMembers_text hkeys hread hlimit rest
  have hmembers : (entries.map Padded.entry).map Prod.snd =
      entries.map fun padded => padded.entry.2 := List.map_map
  rw [readNodeValue, skipBlanks_cons (by decide), ← hmembers]
  refine Verdict.congr (Verdict.bind hloop (requireKind _ rest)) throughout_namesKind fun _ => ?_
  rw [Value.height_obj_le, hmembers, List.forall_mem_map, and_iff_left trivial]

theorem readNodeValue_spelled {value : Value} {text : List Char} (h : Spells value text)
    (hlimit : text.length ≤ limit) (rest : List Char) :
    Verdict (Tagged value) (value.height ≤ bound + 1) (readNodeValue limit bound (text ++ rest))
      (value, rest) := by
  cases h with
  | null | true | false =>
    exact .of_error (fun htagged => nomatch htagged)
      (readNodeValue_other _ (by decide) (by decide) (by decide))
  | str h =>
    exact .of_error (fun htagged => nomatch htagged)
      (readNodeValue_other _ (by decide) (by decide) (by decide))
  | num h =>
    obtain ⟨c, more, rfl, hblank, hbracket⟩ := h.numeral.first
    simp only [List.mem_cons, not_or] at hbracket
    exact .of_error (fun htagged => nomatch htagged)
      (readNodeValue_other _ hblank hbracket.1 hbracket.2.2.1)
  | arr h =>
    rw [List.length_cons] at hlimit
    exact readNodeValue_arr h (Nat.le_of_succ_le hlimit) rest
  | obj hkeys h =>
    rw [List.length_cons] at hlimit
    exact readNodeValue_obj hkeys h (Nat.le_of_succ_le hlimit) rest

/-- A node is decoded only if it names its kind. -/
theorem tagged_of_decode {value : Value} {node : Node}
    (h : decode value (.record .node) = .ok node) : Tagged value := by
  cases value with
  | null | bool _ | num _ | str _ => cases h
  | arr items =>
    rw [RecordType.decode_arr] at h
    cases items with
    | nil => cases h
    | cons tag items =>
      obtain ⟨name, htag, -⟩ := bind_eq_ok.mp h
      rw [decode_tag.mp htag]
      exact .arr name items
  | obj members =>
    obtain ⟨shape, ⟨kind, hhas, hkind⟩, -⟩ := RecordType.decode_obj_eq_ok.mp h
    cases hhas with
    | byKind => exact .obj hkind

/-- The node that a value is decoded to, if it is. -/
def decodedNode (value : Value) : Node :=
  match decode value (.record .node) with
  | .ok node => node
  | .error _ => .unknown

theorem readNode_spelled {value : Value} {text : List Char} (h : Spells value text)
    (hlimit : text.length ≤ limit) (rest : List Char) :
    Verdict (∃ node, decode value (.record .node) = .ok node) (value.height ≤ bound + 1)
      (readNode limit bound (text ++ rest)) (decodedNode value, rest) := by
  have hvalue : Verdict _ (value.height ≤ bound + 1) (readNodeValue limit bound (text ++ rest)) _ :=
    readNodeValue_spelled h hlimit rest
  have hdecode : Verdict (∃ node, decode value (.record .node) = .ok node) True
      (match decode value (.record .node) with
        | .ok node => .ok (node, rest)
        | .error difference => reject difference (afterItem rest)) (decodedNode value, rest) := by
    rw [decodedNode]
    cases hresult : decode value (.record .node) with
    | ok node => exact (Verdict.of_ok rfl).congr (iff_of_true trivial ⟨node, rfl⟩) fun _ => Iff.rfl
    | error difference => exact .of_error (fun ⟨_, hok⟩ => nomatch hok) ⟨_, rfl⟩
  have hboth : Verdict _ _ (readNode limit bound (text ++ rest)) _ := hvalue.bind hdecode
  refine hboth.congr (and_iff_right_of_imp ?_) fun _ => and_iff_left trivial
  rintro ⟨node, hnode⟩
  exact tagged_of_decode hnode

/-! ## Bodies -/

/-- The nodes that a list of values is decoded to, if it is. -/
def decodedNodes : Value → List Node
  | .arr items => items.map decodedNode
  | _ => []

theorem decodedNodes_of_decode {body : Value} {nodes : List Node}
    (h : decode body (.list .node) = .ok nodes) : decodedNodes body = nodes := by
  cases body with
  | null | bool _ | num _ | str _ | obj _ => cases h
  | arr items =>
    have hall := RecordType.decode_list_eq_ok.mp h
    clear h
    induction hall with
    | nil => rfl
    | cons hitem _ ih =>
      rw [decodedNodes] at ih ⊢
      rw [List.map_cons, ih, decodedNode, hitem]

theorem decodes_list {items : List Value} :
    (∃ nodes, decode (.arr items) (.list .node) = .ok nodes) ↔
      ∀ item ∈ items, ∃ node, decode item (.record .node) = .ok node := by
  constructor
  · rintro ⟨nodes, hnodes⟩ item hitem
    have hall := RecordType.decode_list_eq_ok.mp hnodes
    rw [← decodedNodes_of_decode hnodes, decodedNodes, List.forall₂_map_right_iff,
      List.forall₂_same] at hall
    exact ⟨_, hall item hitem⟩
  · intro h
    refine ⟨items.map decodedNode, RecordType.decode_list_eq_ok.mpr ?_⟩
    rw [List.forall₂_map_right_iff, List.forall₂_same]
    intro item hitem
    obtain ⟨node, hnode⟩ := h item hitem
    rw [decodedNode, hnode]

theorem readBody_gap (gap : Gap) (text : List Char) :
    readBody limit (gap.chars ++ text) = readBody limit text := by
  simp only [readBody, skipBlanks_gap]

theorem readBody_other {c : Char} (rest : List Char) (hblank : isBlank c = false)
    (hlist : c ≠ '[') : ∃ refusal, readBody limit (c :: rest) = .error refusal := by
  rw [readBody, skipBlanks_cons hblank]
  split
  · exact ⟨_, rfl⟩
  · rename_i heq
    exact absurd (List.cons.inj heq).1 hlist
  · exact rejectValue_error _ _

theorem readBody_spelled {body : Value} {text : List Char} (h : Spells body text)
    (hlimit : text.length ≤ limit) (rest : List Char) :
    Verdict (∃ nodes, decode body (.list .node) = .ok nodes) (body.height ≤ 126)
      (readBody limit (text ++ rest)) (decodedNodes body, rest) := by
  have hother {value : Value} {result : Except Refusal (List Node × List Char)}
      (hvalue : ∀ nodes, decode value (.list .node) ≠ .ok nodes)
      (herror : ∃ refusal, result = .error refusal) :
      Verdict (∃ nodes, decode value (.list .node) = .ok nodes) (value.height ≤ 126) result
        (decodedNodes value, rest) :=
    .of_error (fun ⟨nodes, hnodes⟩ => hvalue nodes hnodes) herror
  cases h with
  | null | true | false => exact hother nofun (readBody_other _ (by decide) (by decide))
  | str h => exact hother nofun (readBody_other _ (by decide) (by decide))
  | num h =>
    obtain ⟨c, more, rfl, hblank, hbracket⟩ := h.numeral.first
    simp only [List.mem_cons, not_or] at hbracket
    exact hother nofun (readBody_other _ hblank hbracket.1)
  | obj hkeys h => exact hother nofun (readBody_other _ (by decide) (by decide))
  | @arr entries final h =>
    rw [List.length_cons] at hlimit
    have hread : ∀ padded ∈ entries, padded.entry.1.length ≤ limit →
        ReadsItem (readNode limit (maxDepth - 3)) Prod.fst (fun entry => decodedNode entry.2)
          (fun entry => ∃ node, decode entry.2 (.record .node) = .ok node)
          (fun entry => entry.2.height ≤ 125) padded.entry :=
      fun padded hp hl =>
        ⟨(h padded hp).jsonText.opens, fun _ => readNode_spelled (h padded hp) hl _⟩
    have hloop := readItems_text hread (Nat.le_of_succ_le hlimit) rest
    rw [List.cons_append, readBody, skipBlanks_cons (by decide), decodedNodes, List.map_map]
    refine hloop.congr ?_ fun _ => ?_
    · rw [decodes_list, List.forall_mem_map]
    · rw [Value.height_arr_le, List.forall_mem_map]

end ShaderScript.Wire
