import ShaderScript.Proofs.Json.Acceptance
import ShaderScript.Proofs.Wire.Loading

/-!
# Which texts are loaded

A text that is loaded is one of the ways to write a program. With what is known of these ways, this
settles the loader: it accepts a text exactly if the text writes a program whose body is decoded,
and in which brackets are not nested too deep.
-/

namespace ShaderScript.Wire

open ShaderScript.Json

/-! ## Nodes -/

section Nodes

variable {limit bound : Nat} {text rest : List Char}

theorem readTag_accepts {name : String} (h : readTag text = .ok (name, rest)) :
    ∃ (lead : Gap) (written : List Char), text = lead.chars ++ (written ++ rest) ∧
      Spells (.str name) written := by
  obtain ⟨gap, hgap⟩ := exists_gap text
  unfold readTag at h
  split at h
  · cases h
  · rename_i hquote
    obtain ⟨body, rfl, hbody⟩ := readString_accepts h
    exact ⟨gap, '"' :: (body ++ ['"']), by rw [hgap, hquote]; simp, .str hbody⟩
  · obtain ⟨refusal, herror⟩ := rejectValue_error (FieldType.expected .tag) (skipBlanks text)
    cases herror.symm.trans h

theorem acceptsMember_readNodeMember :
    AcceptsMember (readNodeMember limit bound) (fun entry => entry.2.1) Prod.fst MembersRead := by
  intro before state final name text rest written hbefore h
  unfold readNodeMember at h
  split at h
  · split at h
    · cases h
    · obtain ⟨afterColon, hcolon, h⟩ := bind_eq_ok.mp h
      obtain ⟨⟨kind, afterKind⟩, hkind, h⟩ := bind_eq_ok.mp h
      cases h
      obtain ⟨gap, rfl⟩ := readColon_accepts hcolon
      obtain ⟨lead, chars, rfl, hspells⟩ := readTag_accepts hkind
      refine ⟨(⟨written, gap, lead, chars⟩, name, .str kind), rfl, rfl, ?_, hbefore.add hspells⟩
      rw [MemberText.tail_append]
  · exact acceptsMember_readMember acceptsItem_readValue written hbefore h

theorem readNodeValue_accepts {value : Value}
    (h : readNodeValue limit bound text = .ok (value, rest)) :
    ∃ (lead : Gap) (written : List Char), text = lead.chars ++ (written ++ rest) ∧
      Spells value written := by
  obtain ⟨gap, hgap⟩ := exists_gap text
  unfold readNodeValue at h
  split at h
  · cases h
  · rename_i tail hopen
    obtain ⟨lead, hlead⟩ := exists_gap tail
    split at h
    · cases h
    · cases h
    · obtain ⟨⟨name, afterName⟩, hname, h⟩ := bind_eq_ok.mp h
      obtain ⟨⟨items, afterItems⟩, hitems, h⟩ := bind_eq_ok.mp h
      cases h
      obtain ⟨blanks, written, htext, hspells⟩ := readTag_accepts hname
      obtain ⟨after, final, entries, rfl, rfl, hentries⟩ :=
        readMoreItems_accepts acceptsItem_readValue hitems
      have hall : ∀ padded ∈ ⟨lead.append blanks, (written, .str name), after⟩ :: entries,
          Spells padded.entry.2 padded.entry.1 := List.forall_mem_cons.mpr ⟨hspells, hentries⟩
      refine ⟨gap, _, ?_, @Spells.arr _ final hall⟩
      rw [hgap, hopen, hlead, htext]
      simp [bracketedText, Padded.onto, Gap.append]
  · rename_i hopen
    obtain ⟨⟨members, afterMembers⟩, hmembers, h⟩ := bind_eq_ok.mp h
    have hstart : MembersRead [] [] := ⟨rfl, by simp⟩
    obtain ⟨last, entries, rfl, hkeys, rfl, hentries⟩ :=
      readMembers_accepts acceptsMember_readNodeMember hstart hmembers
    dsimp only at h
    split at h
    · cases h
      rw [List.forall_mem_map] at hentries
      rw [List.map_map]
      exact ⟨gap, _, by rw [hgap, hopen]; rfl, .obj hkeys hentries⟩
    · cases h
  · obtain ⟨refusal, herror⟩ := rejectValue_error (RecordType.expected .node) (skipBlanks text)
    cases herror.symm.trans h

theorem acceptsItem_readNode :
    AcceptsItem (readNode limit bound) Prod.fst (fun entry => decodedNode entry.2)
      fun entry => Spells entry.2 entry.1 := by
  intro text rest node h
  obtain ⟨⟨value, afterValue⟩, hvalue, hdecode⟩ := bind_eq_ok.mp h
  obtain ⟨lead, written, htext, hspells⟩ := readNodeValue_accepts hvalue
  dsimp only at hdecode
  split at hdecode
  · rename_i hnode
    cases hdecode
    exact ⟨lead, (written, value), htext, by simp only [decodedNode, hnode], hspells⟩
  · cases hdecode

theorem readBody_accepts {nodes : List Node} (h : readBody limit text = .ok (nodes, rest)) :
    ∃ (lead : Gap) (written : List Char) (body : Value), text = lead.chars ++ (written ++ rest) ∧
      Spells body written := by
  obtain ⟨gap, hgap⟩ := exists_gap text
  unfold readBody at h
  split at h
  · cases h
  · rename_i hopen
    obtain ⟨final, entries, rfl, -, hentries⟩ := readItems_accepts acceptsItem_readNode h
    exact ⟨gap, _, _, by rw [hgap, hopen]; rfl, .arr hentries⟩
  · obtain ⟨refusal, herror⟩ :=
      rejectValue_error (FieldType.expected (.list .node)) (skipBlanks text)
    cases herror.symm.trans h

end Nodes

/-! ## Programs -/

/-- The members of a program so far, and whether the body is among them. -/
inductive ProgramRead : List (MemberText × String) → Option (List Node) → Prop
  | without {members : List (MemberText × String)}
    (h : ∀ member ∈ members, member.2 ≠ "body" ∧ JsonText member.1.value) :
    ProgramRead members none
  | body {before after : List (MemberText × String)} {member : MemberText × String} {body : Value}
    {nodes : List Node} (hbody : member.2 = "body" ∧ Spells body member.1.value)
    (hothers : ∀ other ∈ before ++ after, other.2 ≠ "body" ∧ JsonText other.1.value) :
    ProgramRead (before ++ member :: after) (some nodes)

section Programs

variable {limit : Nat} {text rest : List Char}

theorem ProgramRead.skip {members : List (MemberText × String)} {read : Option (List Node)}
    (h : ProgramRead members read) {member : MemberText × String}
    (hmember : member.2 ≠ "body" ∧ JsonText member.1.value) :
    ProgramRead (members ++ [member]) read := by
  have hlast : ∀ other ∈ [member], other.2 ≠ "body" ∧ JsonText other.1.value :=
    List.forall_mem_singleton.mpr hmember
  cases h with
  | without h => exact .without (List.forall_mem_append.mpr ⟨h, hlast⟩)
  | body hbody hothers =>
    rw [List.append_assoc, List.cons_append]
    refine .body hbody ?_
    rw [← List.append_assoc]
    exact List.forall_mem_append.mpr ⟨hothers, hlast⟩

theorem acceptsMember_readProgramMember :
    AcceptsMember (readProgramMember limit) Prod.snd Prod.fst ProgramRead := by
  intro before state final name text rest written hbefore h
  unfold readProgramMember at h
  split at h
  · rename_i hname
    split at h
    · cases h
    · rename_i hnone
      obtain ⟨afterColon, hcolon, h⟩ := bind_eq_ok.mp h
      obtain ⟨⟨nodes, afterBody⟩, hnodes, h⟩ := bind_eq_ok.mp h
      cases h
      obtain ⟨gap, rfl⟩ := readColon_accepts hcolon
      obtain ⟨lead, chars, body, rfl, hbody⟩ := readBody_accepts hnodes
      refine ⟨(⟨written, gap, lead, chars⟩, name), rfl, rfl, by rw [MemberText.tail_append], ?_⟩
      cases hbefore with
      | without hothers => exact .body ⟨hname, hbody⟩ (by rwa [List.append_nil])
      | body => exact absurd rfl hnone
  · rename_i hname
    obtain ⟨afterColon, hcolon, h⟩ := bind_eq_ok.mp h
    obtain ⟨afterValue, hvalue, h⟩ := bind_eq_ok.mp h
    cases h
    obtain ⟨gap, rfl⟩ := readColon_accepts hcolon
    obtain ⟨lead, chars, rfl, hjson⟩ := skipValue_accepts hvalue
    exact ⟨(⟨written, gap, lead, chars⟩, name), rfl, rfl, by rw [MemberText.tail_append],
      hbefore.skip ⟨hname, hjson⟩⟩

theorem closeProgram_accepts (h : closeProgram text = .ok rest) :
    ∃ gap : Gap, text = gap.chars ++ ']' :: rest := by
  obtain ⟨gap, hgap⟩ := exists_gap text
  unfold closeProgram at h
  split at h
  · cases h
  · rename_i hclose
    cases h
    exact ⟨gap, by rw [← hclose]; exact hgap⟩
  · split at h <;> cases h
  · cases h

/-- What is read as a program is one of the ways to write one. -/
theorem readProgram_accepts {program : Program}
    (h : readProgram limit text = .ok (program, rest)) :
    ∃ (lead : Gap) (core : List Char) (body : Value), text = lead.chars ++ (core ++ rest) ∧
      ProgramText body core := by
  obtain ⟨gap, hgap⟩ := exists_gap text
  unfold readProgram at h
  split at h
  · cases h
  · rename_i tail hopen
    obtain ⟨lead, hlead⟩ := exists_gap tail
    split at h
    · cases h
    · cases h
    · obtain ⟨⟨nodes, afterBody⟩, hnodes, h⟩ := bind_eq_ok.mp h
      obtain ⟨afterClose, hclose, h⟩ := bind_eq_ok.mp h
      cases h
      obtain ⟨blanks, written, body, htext, hbody⟩ := readBody_accepts hnodes
      obtain ⟨after, rfl⟩ := closeProgram_accepts hclose
      refine ⟨gap, _, body, ?_,
        @ProgramText.list _ ⟨lead.append blanks, written, after⟩ .empty hbody⟩
      rw [hgap, hopen, hlead, htext]
      simp [bracketedText, moreText, Padded.onto, Gap.append, Gap.empty]
  · rename_i hopen
    obtain ⟨⟨read, afterMembers⟩, hmembers, h⟩ := bind_eq_ok.mp h
    have hstart : ProgramRead [] none := .without (by simp)
    obtain ⟨last, entries, rfl, hkeys, hread⟩ :=
      readMembers_accepts acceptsMember_readProgramMember hstart hmembers
    generalize hentries : entries.map Padded.entry = members at hread
    cases hread with
    | without => cases h
    | body hbody hothers =>
      cases h
      obtain ⟨before, _, rfl, rfl, hmore⟩ := List.map_eq_append_iff.mp hentries
      obtain ⟨member, after, rfl, rfl, rfl⟩ := List.map_eq_cons_iff.mp hmore
      rw [← List.map_append, List.forall_mem_map] at hothers
      exact ⟨gap, _, _, by rw [hgap, hopen]; rfl, .object hkeys hbody hothers⟩
  · obtain ⟨refusal, herror⟩ := rejectValue_error "struct Program" (skipBlanks text)
    cases herror.symm.trans h

end Programs

/-! ## Texts -/

theorem spelling_of_load {text : String} {program : Program}
    (h : Program.load text = .ok program) : ∃ body, Spelling body text := by
  have hall : readAll text.toList = .ok program := by
    unfold Program.load at h
    split at h
    · rename_i hread
      rw [hread, Except.ok.inj h]
    · cases h
  obtain ⟨⟨read, trail⟩, hprogram, hend⟩ := bind_eq_ok.mp hall
  obtain ⟨lead, core, body, htext, hcore⟩ := readProgram_accepts hprogram
  obtain ⟨gap, hgap⟩ := exists_gap trail
  dsimp only at hend
  split at hend
  · rename_i hnil
    refine ⟨body, lead, gap, core, hcore, ?_⟩
    rw [htext, hgap, hnil, List.append_nil]
  · cases hend

/-- A text is loaded as a program exactly if it is one of the ways to write a body that is decoded
to the nodes of the program and is not nested too deep. -/
theorem load_eq_ok_iff_spelling {text : String} {program : Program} :
    Program.load text = .ok program ↔
      ∃ body, Spelling body text ∧ body.height ≤ 126 ∧
        decode body (.list .node) = .ok program.body := by
  constructor
  · intro h
    obtain ⟨body, hspelling⟩ := spelling_of_load h
    exact ⟨body, hspelling, (load_eq_ok_iff hspelling).mp h⟩
  · rintro ⟨body, hspelling, hbody⟩
    exact (load_eq_ok_iff hspelling).mpr hbody

end ShaderScript.Wire
