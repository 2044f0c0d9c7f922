import ShaderScript.Proofs.Json.Skipping
import ShaderScript.Proofs.Json.Tokens

/-!
# What is accepted as a value

The readers take nothing that is not JSON. What is read as a value is one of the ways to write it,
and what is skipped as a value is the text of one. For the loops this follows from what is known of
the reader of their entries. The skipper has no calls to return from, only a list of open brackets;
`Closes` says what that list still demands of the text.
-/

namespace ShaderScript.Json

def Gap.append (first second : Gap) : Gap where
  chars := first.chars ++ second.chars
  blank := List.forall_mem_append.mpr ⟨first.blank, second.blank⟩

/-! ## Lists -/

section Items

variable {α β : Type} {item : List Char → Except Refusal (α × List Char)} {write : β → List Char}
  {read : β → α} {holds : β → Prop} {limit : Nat} {text rest : List Char} {items : List α}

/-- Whatever the reader accepts is the text of an entry, and this is read from it. -/
def AcceptsItem (item : List Char → Except Refusal (α × List Char)) (write : β → List Char)
    (read : β → α) (holds : β → Prop) : Prop :=
  ∀ ⦃text rest : List Char⦄ ⦃value : α⦄, item text = .ok (value, rest) →
    ∃ (lead : Gap) (entry : β), text = lead.chars ++ (write entry ++ rest) ∧ read entry = value ∧
      holds entry

theorem readMoreItems_accepts (hitem : AcceptsItem item write read holds)
    (h : readMoreItems item limit text = .ok (items, rest)) :
    ∃ (gap final : Gap) (entries : List (Padded β)),
      text = gap.chars ++ (moreText ']' write final entries ++ rest) ∧
        (entries.map fun padded => read padded.entry) = items ∧
          ∀ padded ∈ entries, holds padded.entry := by
  induction limit generalizing text items with
  | zero => cases h
  | succ limit ih =>
    obtain ⟨gap, hgap⟩ := exists_gap text
    rw [readMoreItems] at h
    split at h
    · cases h
    · rename_i hclose
      cases h
      exact ⟨gap, .empty, [], by rw [hgap, hclose]; rfl, rfl, by simp⟩
    · rename_i tail hcomma
      obtain ⟨lead, hlead⟩ := exists_gap tail
      split at h
      · cases h
      · cases h
      · obtain ⟨⟨first, afterFirst⟩, hfirst, h⟩ := bind_eq_ok.mp h
        obtain ⟨⟨more, afterMore⟩, hmore, h⟩ := bind_eq_ok.mp h
        cases h
        obtain ⟨blanks, entry, htext, rfl, hentry⟩ := hitem hfirst
        obtain ⟨after, final, entries, rfl, rfl, hentries⟩ := ih hmore
        refine ⟨gap, final, ⟨lead.append blanks, entry, after⟩ :: entries, ?_, rfl,
          List.forall_mem_cons.mpr ⟨hentry, hentries⟩⟩
        rw [hgap, hcomma, hlead, htext]
        simp [moreText, Padded.onto, Gap.append]
    · cases h

theorem readItems_accepts (hitem : AcceptsItem item write read holds)
    (h : readItems item limit text = .ok (items, rest)) :
    ∃ (final : Gap) (entries : List (Padded β)),
      text = bracketedText ']' write final entries ++ rest ∧
        (entries.map fun padded => read padded.entry) = items ∧
          ∀ padded ∈ entries, holds padded.entry := by
  obtain ⟨gap, hgap⟩ := exists_gap text
  unfold readItems at h
  split at h
  · cases h
  · rename_i hclose
    cases h
    refine ⟨gap, [], ?_, rfl, by simp⟩
    rw [hgap, hclose, bracketedText, List.append_assoc]
    rfl
  · obtain ⟨⟨first, afterFirst⟩, hfirst, h⟩ := bind_eq_ok.mp h
    obtain ⟨⟨more, afterMore⟩, hmore, h⟩ := bind_eq_ok.mp h
    cases h
    obtain ⟨blanks, entry, htext, rfl, hentry⟩ := hitem hfirst
    obtain ⟨after, final, entries, rfl, rfl, hentries⟩ := readMoreItems_accepts hitem hmore
    refine ⟨final, ⟨gap.append blanks, entry, after⟩ :: entries, ?_, rfl,
      List.forall_mem_cons.mpr ⟨hentry, hentries⟩⟩
    rw [hgap, htext]
    simp [bracketedText, Padded.onto, Gap.append]

end Items

/-! ## Objects -/

section Members

variable {σ β : Type} {member : σ → String → List Char → Except Refusal (σ × List Char)}
  {key : β → String} {layout : β → MemberText} {holds : List β → σ → Prop} {limit : Nat}
  {before : List β} {state final : σ} {text rest : List Char}

/-- Whatever the reader accepts after a key is the rest of a member, and the state goes on to agree
with the members that were read. -/
def AcceptsMember (member : σ → String → List Char → Except Refusal (σ × List Char))
    (key : β → String) (layout : β → MemberText) (holds : List β → σ → Prop) : Prop :=
  ∀ ⦃before : List β⦄ ⦃state final : σ⦄ ⦃name : String⦄ ⦃text rest : List Char⦄
    (written : List Char), holds before state → member state name text = .ok (final, rest) →
      ∃ entry, key entry = name ∧ (layout entry).key = written ∧
        text = (layout entry).tail ++ rest ∧ holds (before ++ [entry]) final

theorem readKeyed_accepts (hmember : AcceptsMember member key layout holds)
    (hbefore : holds before state) (h : readKeyed member state text = .ok (final, rest)) :
    ∃ entry, '"' :: text = (layout entry).chars ++ rest ∧
      Spelled (key entry).toList (layout entry).key ∧ holds (before ++ [entry]) final := by
  obtain ⟨⟨name, afterKey⟩, hname, hread⟩ := bind_eq_ok.mp h
  obtain ⟨written, rfl, hspelled⟩ := readString_accepts hname
  obtain ⟨entry, rfl, rfl, rfl, hentry⟩ := hmember written hbefore hread
  exact ⟨entry, by simp [MemberText.chars], hspelled, hentry⟩

theorem readMoreMembers_accepts (hmember : AcceptsMember member key layout holds)
    (hbefore : holds before state)
    (h : readMoreMembers member limit state text = .ok (final, rest)) :
    ∃ (gap last : Gap) (entries : List (Padded β)),
      text = gap.chars ++
        (moreText '\x7d' (fun entry => (layout entry).chars) last entries ++ rest) ∧
        (∀ padded ∈ entries, Spelled (key padded.entry).toList (layout padded.entry).key) ∧
          holds (before ++ entries.map Padded.entry) final := by
  induction limit generalizing text state before with
  | zero => cases h
  | succ limit ih =>
    obtain ⟨gap, hgap⟩ := exists_gap text
    rw [readMoreMembers] at h
    split at h
    · cases h
    · rename_i hclose
      cases h
      refine ⟨gap, .empty, [], by rw [hgap, hclose]; rfl, by simp, ?_⟩
      rw [List.map_nil, List.append_nil]
      exact hbefore
    · rename_i tail hcomma
      obtain ⟨lead, hlead⟩ := exists_gap tail
      split at h
      · cases h
      · rename_i hquote
        obtain ⟨⟨next, afterEntry⟩, hentry, h⟩ := bind_eq_ok.mp h
        obtain ⟨entry, htext, hkey, hnext⟩ := readKeyed_accepts hmember hbefore hentry
        obtain ⟨after, last, entries, rfl, hkeys, hentries⟩ := ih hnext h
        refine ⟨gap, last, ⟨lead, entry, after⟩ :: entries, ?_,
          List.forall_mem_cons.mpr ⟨hkey, hkeys⟩, ?_⟩
        · rw [hgap, hcomma, hlead, hquote, htext]
          simp [moreText, Padded.onto]
        · rw [List.append_assoc] at hentries
          exact hentries
      · cases h
      · cases h
    · cases h

theorem readMembers_accepts (hmember : AcceptsMember member key layout holds)
    (hbefore : holds [] state) (h : readMembers member limit state text = .ok (final, rest)) :
    ∃ (last : Gap) (entries : List (Padded β)),
      text = bracketedText '\x7d' (fun entry => (layout entry).chars) last entries ++ rest ∧
        (∀ padded ∈ entries, Spelled (key padded.entry).toList (layout padded.entry).key) ∧
          holds (entries.map Padded.entry) final := by
  obtain ⟨gap, hgap⟩ := exists_gap text
  unfold readMembers at h
  split at h
  · cases h
  · rename_i hclose
    cases h
    refine ⟨gap, [], ?_, by simp, hbefore⟩
    rw [hgap, hclose, bracketedText, List.append_assoc]
    rfl
  · rename_i hquote
    obtain ⟨⟨next, afterEntry⟩, hentry, h⟩ := bind_eq_ok.mp h
    obtain ⟨entry, htext, hkey, hnext⟩ := readKeyed_accepts hmember hbefore hentry
    obtain ⟨after, last, entries, rfl, hkeys, hentries⟩ := readMoreMembers_accepts hmember hnext h
    refine ⟨last, ⟨gap, entry, after⟩ :: entries, ?_, List.forall_mem_cons.mpr ⟨hkey, hkeys⟩,
      hentries⟩
    rw [hgap, hquote, htext]
    simp [bracketedText, Padded.onto]
  · cases h

end Members

/-! ## Values -/

theorem getD_refuseNext_eq_ok {α : Type} {result : Option (Except Refusal α)} {value : α}
    {fault : Fault} {unread : List Char} (h : result.getD (refuseNext fault unread) = .ok value) :
    result = some (.ok value) := by
  cases result with
  | none => cases h
  | some result => exact congrArg some h

section Values

variable {limit bound : Nat} {text rest : List Char} {value : Value}

theorem readScalar?_accepts (h : readScalar? text = some (.ok (value, rest))) :
    ∃ written, text = written ++ rest ∧ Spells value written := by
  unfold readScalar? at h
  split at h
  · obtain ⟨after, hword, heq⟩ := map_eq_ok.mp (Option.some.inj h)
    cases heq
    exact ⟨_, by rw [readWord_accepts hword]; rfl, .null⟩
  · obtain ⟨after, hword, heq⟩ := map_eq_ok.mp (Option.some.inj h)
    cases heq
    exact ⟨_, by rw [readWord_accepts hword]; rfl, .true⟩
  · obtain ⟨after, hword, heq⟩ := map_eq_ok.mp (Option.some.inj h)
    cases heq
    exact ⟨_, by rw [readWord_accepts hword]; rfl, .false⟩
  · obtain ⟨⟨content, after⟩, hstring, heq⟩ := map_eq_ok.mp (Option.some.inj h)
    cases heq
    obtain ⟨body, rfl, hbody⟩ := readString_accepts hstring
    exact ⟨_, by simp, .str hbody⟩
  · obtain ⟨⟨number, after⟩, hnumber, heq⟩ := map_eq_ok.mp (Option.some.inj h)
    cases heq
    obtain ⟨numeral, rfl, hunsigned, hread⟩ := readNumber_accepts hnumber
    exact ⟨'-' :: numeral, rfl, .num (.negative hunsigned hread)⟩
  · split at h
    · obtain ⟨⟨number, after⟩, hnumber, heq⟩ := map_eq_ok.mp (Option.some.inj h)
      cases heq
      obtain ⟨numeral, htext, hunsigned, hread⟩ := readNumber_accepts hnumber
      exact ⟨numeral, htext, .num (.positive hunsigned hread)⟩
    · cases h
  · cases h

/-- The members that were read are those of the object so far, each with one of the ways to write
its value. -/
def MembersRead (entries : List (MemberText × String × Value)) (members : List (String × Value)) :
    Prop :=
  entries.map Prod.snd = members ∧ ∀ entry ∈ entries, Spells entry.2.2 entry.1.value

theorem MembersRead.add {entries : List (MemberText × String × Value)}
    {members : List (String × Value)} (h : MembersRead entries members)
    {entry : MemberText × String × Value} (hentry : Spells entry.2.2 entry.1.value) :
    MembersRead (entries ++ [entry]) (members ++ [entry.2]) := by
  obtain ⟨rfl, hspells⟩ := h
  exact ⟨by simp, List.forall_mem_append.mpr ⟨hspells, List.forall_mem_singleton.mpr hentry⟩⟩

/-- What is read as the value of a member after its colon. -/
theorem acceptsMember_readMember {reader : List Char → Except Refusal (Value × List Char)}
    (h : AcceptsItem reader Prod.fst Prod.snd fun entry => Spells entry.2 entry.1) :
    AcceptsMember (readMember reader) (fun entry => entry.2.1) Prod.fst MembersRead := by
  intro before state final name text rest written hbefore hread
  obtain ⟨afterColon, hcolon, hread⟩ := bind_eq_ok.mp hread
  obtain ⟨⟨value, afterValue⟩, hvalue, hread⟩ := bind_eq_ok.mp hread
  cases hread
  obtain ⟨gap, rfl⟩ := readColon_accepts hcolon
  obtain ⟨lead, ⟨chars, content⟩, rfl, rfl, hspells⟩ := h hvalue
  refine ⟨(⟨written, gap, lead, chars⟩, name, content), rfl, rfl, ?_, hbefore.add hspells⟩
  rw [MemberText.tail_append]

/-- What is read as a value is one of the ways to write it. -/
theorem acceptsItem_readValue :
    AcceptsItem (readValue limit bound) Prod.fst Prod.snd fun entry => Spells entry.2 entry.1 := by
  induction bound with
  | zero =>
    intro text rest value h
    obtain ⟨gap, hgap⟩ := exists_gap text
    rw [readValue] at h
    split at h
    · cases h
    · cases h
    · cases h
    · obtain ⟨written, htext, hspells⟩ := readScalar?_accepts (getD_refuseNext_eq_ok h)
      exact ⟨gap, (written, value), by rw [hgap, htext], rfl, hspells⟩
  | succ bound ih =>
    intro text rest value h
    obtain ⟨gap, hgap⟩ := exists_gap text
    rw [readValue] at h
    split at h
    · cases h
    · rename_i hopen
      obtain ⟨⟨items, afterItems⟩, hitems, h⟩ := bind_eq_ok.mp h
      cases h
      obtain ⟨final, entries, rfl, rfl, hentries⟩ := readItems_accepts ih hitems
      exact ⟨gap, (_, _), by rw [hgap, hopen]; rfl, rfl, .arr hentries⟩
    · rename_i hopen
      obtain ⟨⟨members, afterMembers⟩, hmembers, h⟩ := bind_eq_ok.mp h
      cases h
      have hstart : MembersRead [] [] := ⟨rfl, by simp⟩
      obtain ⟨last, entries, rfl, hkeys, rfl, hentries⟩ :=
        readMembers_accepts (acceptsMember_readMember ih) hstart hmembers
      rw [List.forall_mem_map] at hentries
      rw [List.map_map]
      exact ⟨gap, (_, _), by rw [hgap, hopen]; rfl, rfl, .obj hkeys hentries⟩
    · obtain ⟨written, htext, hspells⟩ := readScalar?_accepts (getD_refuseNext_eq_ok h)
      exact ⟨gap, (written, value), by rw [hgap, htext], rfl, hspells⟩

end Values

/-! ## Skipped values -/

section Skipped

variable {text rest : List Char}

theorem skipScalar?_accepts (h : skipScalar? text = some (.ok rest)) :
    ∃ written, text = written ++ rest ∧ JsonText written := by
  have hword {letter : Char} {word after : List Char} (h : readWord word after = .ok rest)
      (hmem : letter :: word ∈ ["null".toList, "true".toList, "false".toList]) :
      ∃ written, letter :: after = written ++ rest ∧ JsonText written :=
    ⟨letter :: word, by rw [readWord_accepts h]; rfl, .word hmem⟩
  unfold skipScalar? at h
  split at h
  · exact hword (Option.some.inj h) (by decide)
  · exact hword (Option.some.inj h) (by decide)
  · exact hword (Option.some.inj h) (by decide)
  · obtain ⟨body, rfl, hbody⟩ := skipStringFrom_accepts (Option.some.inj h)
    exact ⟨'"' :: (body ++ ['"']), by simp, .str hbody⟩
  · obtain ⟨numeral, rfl, hunsigned⟩ := skipNumber_accepts (Option.some.inj h)
    exact ⟨'-' :: numeral, rfl, .num (.negative hunsigned)⟩
  · split at h
    · obtain ⟨numeral, htext, hunsigned⟩ := skipNumber_accepts (Option.some.inj h)
      exact ⟨numeral, htext, .num (.positive hunsigned)⟩
    · cases h
  · cases h

theorem skipKey_accepts (h : skipKey text = .ok rest) :
    ∃ (lead gap : Gap) (key : List Char),
      text = lead.chars ++ '"' :: (key ++ '"' :: (gap.chars ++ ':' :: rest)) ∧ StringText key := by
  obtain ⟨lead, hlead⟩ := exists_gap text
  unfold skipKey at h
  split at h
  · rename_i hquote
    obtain ⟨afterKey, hstring, hcolon⟩ := bind_eq_ok.mp h
    obtain ⟨key, rfl, hkey⟩ := skipStringFrom_accepts hstring
    obtain ⟨gap, rfl⟩ := readColon_accepts hcolon
    exact ⟨lead, gap, key, by rw [hlead, hquote], hkey⟩
  · cases h
  · cases h

/-- How an entry is written between the brackets. In a list it is only a value. -/
def Bracket.entryText : Bracket → MemberText → List Char
  | list => MemberText.value
  | object => MemberText.chars

structure EntryText (bracket : Bracket) (entry : MemberText) : Prop where
  key : bracket = .object → StringText entry.key
  value : JsonText entry.value

theorem jsonText_bracketed {bracket : Bracket} {final : Gap} {entries : List (Padded MemberText)}
    (h : ∀ padded ∈ entries, EntryText bracket padded.entry) :
    JsonText (bracket.opening ::
      bracketedText bracket.closing bracket.entryText final entries) := by
  cases bracket with
  | list => exact .arr fun padded hp => (h padded hp).value
  | object =>
    exact .obj (fun padded hp => (h padded hp).key rfl) fun padded hp => (h padded hp).value

theorem toEntry_accepts {bracket : Bracket} {lead : Gap} {value : List Char}
    (h : bracket.toEntry text = .ok (lead.chars ++ (value ++ rest))) (hvalue : JsonText value) :
    ∃ (before : Gap) (entry : MemberText),
      text = before.chars ++ (bracket.entryText entry ++ rest) ∧ EntryText bracket entry := by
  cases bracket with
  | list => exact ⟨lead, ⟨[], .empty, .empty, value⟩, Except.ok.inj h, nofun, hvalue⟩
  | object =>
    obtain ⟨before, gap, key, rfl, hkey⟩ := skipKey_accepts h
    refine ⟨before, ⟨key, gap, lead, value⟩, ?_, fun _ => hkey, hvalue⟩
    simp [Bracket.entryText, MemberText.chars, MemberText.tail]

/-- What the open brackets demand of the text after a value: the further entries of each, and its
closing bracket. -/
def Closes : List Bracket → (text rest : List Char) → Prop
  | [], text, rest => text = rest
  | bracket :: enclosing, text, rest =>
    ∃ (gap final : Gap) (entries : List (Padded MemberText)) (next : List Char),
      text = gap.chars ++ (moreText bracket.closing bracket.entryText final entries ++ next) ∧
        (∀ padded ∈ entries, EntryText bracket padded.entry) ∧ Closes enclosing next rest

/-- What the skipper has accepted, by where it stood. -/
def Skipped (enclosing : List Bracket) (text rest : List Char) : SkipState → Prop
  | .before => ∃ (lead : Gap) (value next : List Char),
    text = lead.chars ++ (value ++ next) ∧ JsonText value ∧ Closes enclosing next rest
  | .opened bracket => ∃ (final : Gap) (entries : List (Padded MemberText)) (next : List Char),
    text = bracketedText bracket.closing bracket.entryText final entries ++ next ∧
      (∀ padded ∈ entries, EntryText bracket padded.entry) ∧ Closes enclosing next rest
  | .after => Closes enclosing text rest

/-- The first entry of what follows is a value with the key in front of it. -/
theorem Skipped.entry {bracket : Bracket} {enclosing : List Bracket} {afterKey : List Char}
    (hentry : bracket.toEntry text = .ok afterKey)
    (h : Skipped (bracket :: enclosing) afterKey rest .before) :
    ∃ (final : Gap) (padded : Padded MemberText) (entries : List (Padded MemberText))
      (next : List Char),
      text = padded.onto bracket.entryText
        (moreText bracket.closing bracket.entryText final entries ++ next) ∧
        (EntryText bracket padded.entry ∧ ∀ other ∈ entries, EntryText bracket other.entry) ∧
          Closes enclosing next rest := by
  obtain ⟨lead, value, _, rfl, hvalue, gap, final, entries, next, rfl, hentries, hnext⟩ := h
  obtain ⟨before, entry, rfl, htext⟩ := toEntry_accepts hentry hvalue
  exact ⟨final, ⟨before, entry, gap⟩, entries, next, rfl, ⟨htext, hentries⟩, hnext⟩

theorem skipFrom_accepts {steps : Nat} {state : SkipState} {enclosing : List Bracket}
    (h : skipFrom steps state enclosing text = .ok rest) : Skipped enclosing text rest state := by
  induction steps generalizing state enclosing text with
  | zero => cases h
  | succ steps ih =>
    obtain ⟨gap, hgap⟩ := exists_gap text
    cases state with
    | before =>
      have hopened (bracket : Bracket) {tail : List Char}
          (hopen : skipBlanks text = bracket.opening :: tail)
          (h : skipFrom steps (.opened bracket) enclosing tail = .ok rest) :
          Skipped enclosing text rest .before := by
        obtain ⟨final, entries, next, rfl, hentries, hnext⟩ := ih h
        exact ⟨gap, _, next, by rw [hgap, hopen]; rfl, jsonText_bracketed hentries, hnext⟩
      rw [skipFrom] at h
      split at h
      · cases h
      · rename_i hopen
        exact hopened .list hopen h
      · rename_i hopen
        exact hopened .object hopen h
      · obtain ⟨next, hscalar, hnext⟩ := bind_eq_ok.mp h
        obtain ⟨value, hvalue, hjson⟩ := skipScalar?_accepts (getD_refuseNext_eq_ok hscalar)
        exact ⟨gap, value, next, by rw [← hvalue]; exact hgap, hjson, ih hnext⟩
    | opened bracket =>
      rw [skipFrom] at h
      split at h
      · cases h
      · rename_i c tail hfirst
        split at h
        · rename_i hclose
          refine ⟨gap, [], tail, ?_, by simp, ih h⟩
          rw [hgap, hfirst, hclose, bracketedText, List.append_assoc]
          rfl
        · obtain ⟨afterKey, hentry, hnext⟩ := bind_eq_ok.mp h
          obtain ⟨final, ⟨lead, entry, after⟩, entries, next, htext, hentries, hnext⟩ :=
            (ih hnext).entry hentry
          refine ⟨final, ⟨gap.append lead, entry, after⟩ :: entries, next, ?_,
            List.forall_mem_cons.mpr hentries, hnext⟩
          rw [hgap, hfirst, htext]
          simp [bracketedText, Padded.onto, Gap.append]
    | after =>
      cases enclosing with
      | nil => exact Except.ok.inj h
      | cons bracket enclosing =>
        rw [skipFrom] at h
        split at h
        · cases h
        · rename_i c tail hfirst
          split at h
          · rename_i hclose
            refine ⟨gap, .empty, [], tail, ?_, by simp, ih h⟩
            rw [hgap, hfirst, hclose]
            rfl
          · split at h
            · rename_i hcomma
              obtain ⟨afterKey, hentry, hnext⟩ := bind_eq_ok.mp h
              obtain ⟨final, padded, entries, next, htext, hentries, hnext⟩ :=
                (ih hnext).entry hentry
              refine ⟨gap, final, padded :: entries, next, ?_,
                List.forall_mem_cons.mpr hentries, hnext⟩
              rw [hgap, hfirst, hcomma, htext, moreText, List.cons_append, Padded.onto_append]
            · cases h

/-- What is skipped as a value is the text of one. -/
theorem skipValue_accepts {limit : Nat} (h : skipValue limit text = .ok rest) :
    ∃ (lead : Gap) (value : List Char), text = lead.chars ++ (value ++ rest) ∧ JsonText value := by
  obtain ⟨lead, value, next, htext, hvalue, rfl⟩ := skipFrom_accepts h
  exact ⟨lead, value, htext, hvalue⟩

end Skipped

end ShaderScript.Json
