import ShaderScript.Proofs.Json.Nesting
import ShaderScript.Proofs.Json.Skipping
import ShaderScript.Proofs.Wire.Nodes

/-!
# What a text is loaded as

A program has one member that counts, its body, and skips over all others. However the program is
written, a text of it gives the nodes that its body is decoded to, and is refused if that fails or
if brackets are nested too deep.
-/

namespace ShaderScript.Wire

open ShaderScript.Json

variable {limit : Nat}

/-! ## Programs -/

/-- The ways to write a program with this body: an object with one member `body` among others, or a
list with that one item. -/
inductive ProgramText (body : Value) : List Char → Prop
  | object {β : Type} {key : β → String} {layout : β → MemberText} {before after : List (Padded β)}
    {member : Padded β} {final : Gap}
    (hkeys : ∀ padded ∈ before ++ member :: after,
      Spelled (key padded.entry).toList (layout padded.entry).key)
    (hbody : key member.entry = "body" ∧ Spells body (layout member.entry).value)
    (hothers : ∀ padded ∈ before ++ after,
      key padded.entry ≠ "body" ∧ JsonText (layout padded.entry).value) :
    ProgramText body ('\x7b' :: bracketedText '\x7d' (fun entry => (layout entry).chars) final
      (before ++ member :: after))
  | list {padded : Padded (List Char)} {final : Gap} (h : Spells body padded.entry) :
    ProgramText body ('[' :: bracketedText ']' id final [padded])

section Members

variable {β : Type} {key : β → String} {layout : β → MemberText} {body : Value} {entry : β}

/-- The nodes of the program, once its body is among the members. -/
def bodyRead (key : β → String) (body : Value) (entries : List β) : Option (List Node) :=
  if ∀ entry ∈ entries, key entry ≠ "body" then none else some (decodedNodes body)

theorem readsMember_readProgramMember
    (hbody : key entry = "body" → Spells body (layout entry).value)
    (hother : key entry ≠ "body" → JsonText (layout entry).value)
    (hlimit : (layout entry).value.length ≤ limit) :
    ReadsMember (readProgramMember limit) key layout (bodyRead key body)
      (FirstOf key "body" fun _ => ∃ nodes, decode body (.list .node) = .ok nodes)
      (fun entry => key entry = "body" → body.height ≤ 126) entry := by
  intro before rest hrest
  rw [readProgramMember]
  by_cases hkey : key entry = "body"
  · rw [if_pos hkey, MemberText.readColon_tail]
    by_cases hbefore : ∀ other ∈ before, key other ≠ "body"
    · have hread := readBody_spelled (hbody hkey) hlimit rest
      rw [← readBody_gap (layout entry).after] at hread
      have hnext : bodyRead key body (before ++ [entry]) = some (decodedNodes body) :=
        if_neg fun hnone => hnone entry (by simp) hkey
      rw [hnext, bodyRead, if_pos hbefore]
      change Verdict _ _ (readBody limit _ >>= _) _
      refine Verdict.congr (Verdict.map hread rfl) ?_ fun _ => ?_
      · exact ⟨fun hsound _ => ⟨hbefore, hsound⟩, fun hsound => (hsound hkey).2⟩
      · exact ⟨fun hfits _ => hfits, fun hfits => hfits hkey⟩
    · rw [bodyRead, if_neg hbefore]
      exact .of_error (fun hsound => hbefore (hsound hkey).1) ⟨_, rfl⟩
  · have hnext : bodyRead key body (before ++ [entry]) = bodyRead key body before := by
      refine if_congr ?_ rfl rfl
      rw [List.forall_mem_append, List.forall_mem_singleton, and_iff_left hkey]
    have hskip := skipValue_text (hother hkey) hlimit hrest (layout entry).after
    rw [if_neg hkey, MemberText.readColon_tail, hnext]
    refine (Verdict.of_ok ?_).congr ?_ ?_
    · simp only [bind, Except.bind, hskip]
    · exact iff_of_true trivial fun heq => absurd heq hkey
    · exact fun _ => iff_of_true trivial fun heq => absurd heq hkey

/-- The body is the only member with its key. -/
theorem filter_body {before after : List (Padded β)} {member : Padded β}
    (hbody : key member.entry = "body") (hbefore : ∀ padded ∈ before, key padded.entry ≠ "body")
    (hafter : ∀ padded ∈ after, key padded.entry ≠ "body") :
    ((before ++ member :: after).map Padded.entry).filter (fun entry => key entry = "body") =
      [member.entry] := by
  have hnone {entries : List (Padded β)} (h : ∀ padded ∈ entries, key padded.entry ≠ "body") :
      (entries.map Padded.entry).filter (fun entry => key entry = "body") = [] := by
    rw [List.filter_eq_nil_iff, List.forall_mem_map]
    exact fun padded hp => by simp [h padded hp]
  rw [List.map_append, List.map_cons, List.filter_append, hnone hbefore,
    List.filter_cons_of_pos (by simp [hbody]), hnone hafter, List.nil_append]

end Members

theorem readProgram_object {β : Type} {key : β → String} {layout : β → MemberText}
    {before after : List (Padded β)} {member : Padded β} {final : Gap} {body : Value}
    (hkeys : ∀ padded ∈ before ++ member :: after,
      Spelled (key padded.entry).toList (layout padded.entry).key)
    (hbody : key member.entry = "body" ∧ Spells body (layout member.entry).value)
    (hothers : ∀ padded ∈ before ++ after,
      key padded.entry ≠ "body" ∧ JsonText (layout padded.entry).value)
    (hlimit : (bracketedText '\x7d' (fun entry => (layout entry).chars) final
      (before ++ member :: after)).length ≤ limit) (rest : List Char) :
    Verdict (∃ nodes, decode body (.list .node) = .ok nodes) (body.height ≤ 126)
      (readProgram limit ('\x7b' :: (bracketedText '\x7d' (fun entry => (layout entry).chars) final
        (before ++ member :: after) ++ rest))) (⟨decodedNodes body⟩, rest) := by
  rw [List.forall_mem_append] at hothers
  have hmembers : ∀ padded ∈ before ++ member :: after,
      (key padded.entry = "body" → Spells body (layout padded.entry).value) ∧
        (key padded.entry ≠ "body" → JsonText (layout padded.entry).value) := by
    rw [List.forall_mem_append, List.forall_mem_cons]
    refine ⟨?_, ⟨fun _ => hbody.2, fun hne => absurd hbody.1 hne⟩, ?_⟩
    · exact fun padded hp => ⟨fun heq => absurd heq (hothers.1 padded hp).1,
        fun _ => (hothers.1 padded hp).2⟩
    · exact fun padded hp => ⟨fun heq => absurd heq (hothers.2 padded hp).1,
        fun _ => (hothers.2 padded hp).2⟩
  have hread : ∀ padded ∈ before ++ member :: after, (layout padded.entry).value.length ≤ limit →
      ReadsMember (readProgramMember limit) key layout (bodyRead key body)
        (FirstOf key "body" fun _ => ∃ nodes, decode body (.list .node) = .ok nodes)
        (fun entry => key entry = "body" → body.height ≤ 126) padded.entry :=
    fun padded hp => readsMember_readProgramMember (hmembers padded hp).1 (hmembers padded hp).2
  have hloop := readMembers_text hkeys hread hlimit rest
  have hone := filter_body hbody.1 (fun padded hp => (hothers.1 padded hp).1)
    fun padded hp => (hothers.2 padded hp).1
  have hstart : bodyRead key body [] = none := if_pos (by simp)
  have hend : bodyRead key body ((before ++ member :: after).map Padded.entry) =
      some (decodedNodes body) :=
    if_neg fun hno => hno member.entry (by simp) hbody.1
  rw [hstart, hend, throughout_firstOf, hone] at hloop
  rw [readProgram, skipBlanks_cons (by decide)]
  refine Verdict.congr (Verdict.map hloop rfl) ?_ fun _ => ?_
  · simp
  · exact ⟨fun hfits => hfits member (by simp) hbody.1, fun hfits _ _ _ => hfits⟩

theorem closeProgram_text (after final : Gap) (rest : List Char) :
    closeProgram (after.chars ++ (final.chars ++ ']' :: rest)) = .ok rest := by
  rw [closeProgram, skipBlanks_gap, skipBlanks_gap]
  rfl

theorem readProgram_list {body : Value} {padded : Padded (List Char)} {final : Gap}
    (h : Spells body padded.entry)
    (hlimit : (bracketedText ']' id final [padded]).length ≤ limit) (rest : List Char) :
    Verdict (∃ nodes, decode body (.list .node) = .ok nodes) (body.height ≤ 126)
      (readProgram limit ('[' :: (bracketedText ']' id final [padded] ++ rest)))
      (⟨decodedNodes body⟩, rest) := by
  have hlength := (length_bracketedText ']' id final [padded]).2 padded List.mem_cons_self
  have hopens := h.jsonText.opens.append (padded.after.chars ++ (final.chars ++ ']' :: rest))
  have hread := readBody_spelled h (Nat.le_trans hlength hlimit)
    (padded.after.chars ++ (final.chars ++ ']' :: rest))
  have hclose : (closeProgram (padded.after.chars ++ (final.chars ++ ']' :: rest)) >>=
      fun rest => .ok (Program.mk (decodedNodes body), rest)) =
        .ok (⟨decodedNodes body⟩, rest) := by
    rw [closeProgram_text]
    rfl
  have htext : bracketedText ']' id final [padded] ++ rest =
      padded.before.chars ++ (padded.entry ++
        (padded.after.chars ++ (final.chars ++ ']' :: rest))) := by
    simp [bracketedText, moreText, Padded.onto]
  rw [htext, readProgram, skipBlanks_cons (by decide)]
  simp only [skipBlanks_gap, hopens.skipBlanks]
  obtain ⟨c, tail, heq, -, hc, -⟩ := hopens
  split
  · rename_i hnil
    cases heq.symm.trans hnil
  · rename_i hbracket
    exact absurd (List.cons.inj (heq.symm.trans hbracket)).1 hc
  · exact hread.map hclose

theorem readProgram_spelled {body : Value} {text : List Char} (h : ProgramText body text)
    (hlimit : text.length ≤ limit) (rest : List Char) :
    Verdict (∃ nodes, decode body (.list .node) = .ok nodes) (body.height ≤ 126)
      (readProgram limit (text ++ rest)) (⟨decodedNodes body⟩, rest) := by
  cases h with
  | object hkeys hbody hothers =>
    rw [List.length_cons] at hlimit
    exact readProgram_object hkeys hbody hothers (Nat.le_of_succ_le hlimit) rest
  | list h =>
    rw [List.length_cons] at hlimit
    exact readProgram_list h (Nat.le_of_succ_le hlimit) rest

/-! ## Texts -/

/-- The text is one of the ways to write a program with this body, with blanks around it. -/
def Spelling (body : Value) (text : String) : Prop :=
  ∃ (lead trail : Gap) (core : List Char), ProgramText body core ∧
    text.toList = lead.chars ++ (core ++ trail.chars)

section Texts

variable {body : Value} {text : String}

theorem readAll_spelled (h : Spelling body text) :
    Verdict (∃ nodes, decode body (.list .node) = .ok nodes) (body.height ≤ 126)
      (readAll text.toList) ⟨decodedNodes body⟩ := by
  obtain ⟨lead, trail, core, hcore, htext⟩ := h
  have hlimit : core.length ≤ text.toList.length := by
    rw [htext, List.length_append, List.length_append]
    omega
  have hread := readProgram_spelled hcore hlimit trail.chars
  have hgap : readProgram text.toList.length text.toList =
      readProgram text.toList.length (core ++ trail.chars) := by
    rw [readProgram, readProgram, htext, skipBlanks_gap]
  have htrail : skipBlanks trail.chars = [] := by
    have hall := skipBlanks_gap trail []
    rw [List.append_nil] at hall
    exact hall
  rw [readAll, hgap]
  refine hread.map ?_
  simp only [htrail]

/-- Loading a text gives the nodes that its body is decoded to, if that is not nested too deep. -/
theorem load_eq_ok_iff (h : Spelling body text) {program : Program} :
    Program.load text = .ok program ↔
      body.height ≤ 126 ∧ decode body (.list .node) = .ok program.body := by
  have hread := readAll_spelled h
  constructor
  · intro hload
    unfold Program.load at hload
    split at hload
    · rename_i read hok
      obtain ⟨⟨nodes, hnodes⟩, hfits, rfl⟩ := hread.of_result hok
      cases hload
      rw [hnodes, decodedNodes_of_decode hnodes]
      exact ⟨hfits, rfl⟩
    · cases hload
  · rintro ⟨hfits, hdecode⟩
    have hok := (hread.reading ⟨_, hdecode⟩).ok hfits
    rw [decodedNodes_of_decode hdecode] at hok
    rw [Program.load, hok]

/-- The body stands in the bracket of the program. -/
theorem height_lt_bracketDepth (h : Spelling body text) : body.height < bracketDepth text := by
  obtain ⟨lead, trail, core, hcore, htext⟩ := h
  have hdepth : bracketDepth text = nesting text.toList := rfl
  rw [hdepth, htext]
  cases hcore with
  | @object β key layout before after member final hkeys hbody hothers =>
    have hstrings : ∀ padded ∈ before ++ member :: after,
        StringText (layout padded.entry).key := fun padded hp => (hkeys padded hp).stringText
    have hvalues : ∀ padded ∈ before ++ member :: after,
        JsonText (layout padded.entry).value := by
      rw [List.forall_mem_append, List.forall_mem_cons]
      rw [List.forall_mem_append] at hothers
      exact ⟨fun padded hp => (hothers.1 padded hp).2, hbody.2.jsonText,
        fun padded hp => (hothers.2 padded hp).2⟩
    rw [nesting_padded (.obj hstrings hvalues), nesting_obj hstrings hvalues,
      ← nesting_spelled hbody.2, Nat.lt_succ_iff]
    exact Value.le_tallest (fun padded : Padded β => nesting (layout padded.entry).value) (by simp)
  | @list padded final h =>
    have hitems : ∀ other ∈ [padded], JsonText (id other.entry) :=
      List.forall_mem_singleton.mpr h.jsonText
    rw [nesting_padded (.arr hitems), nesting_arr hitems, ← nesting_spelled h, Nat.lt_succ_iff]
    exact Value.le_tallest (fun padded : Padded (List Char) => nesting (id padded.entry))
      List.mem_cons_self

end Texts

end ShaderScript.Wire
