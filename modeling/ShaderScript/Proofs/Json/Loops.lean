import ShaderScript.Json.Reader
import ShaderScript.Proofs.Json.Numbers
import ShaderScript.Proofs.Json.Strings

/-!
# Lists and objects

The two loops that read bracketed text leave its entries to a reader they are given. If it is known
what that reader makes of every entry, then it is known what the loop makes of the text, whatever
blanks stand in it. A loop can end early in two ways: an entry is nested too deep, or an entry is
not what the reader expects.
-/

namespace ShaderScript.Json

/-! ## Readings that succeed or are refused -/

/-- Two steps succeed if the first does and the second does with what the first gave. -/
theorem bind_eq_ok {ε α β : Type} {first : Except ε α} {next : α → Except ε β} {result : β} :
    first >>= next = .ok result ↔ ∃ value, first = .ok value ∧ next value = .ok result := by
  cases first with
  | error refusal => simp [bind, Except.bind]
  | ok value => simp [bind, Except.bind]

theorem map_eq_ok {ε α β : Type} {first : Except ε α} {convert : α → β} {result : β} :
    first.map convert = .ok result ↔ ∃ value, first = .ok value ∧ convert value = result := by
  cases first <;> simp [Except.map]

/-- The reading gives the value if it fits, and is refused as too deep if not. -/
structure Reading {α : Type} (fits : Prop) (result : Except Refusal α) (value : α) : Prop where
  ok : fits → result = .ok value
  deep : ¬ fits → ∃ unread, result = .error ⟨.malformed .tooDeep, unread⟩

namespace Reading

variable {α β : Type} {fits also : Prop} {result : Except Refusal α} {value : α}

theorem of_ok (h : result = .ok value) : Reading True result value :=
  ⟨fun _ => h, fun hnot => absurd trivial hnot⟩

theorem congr (h : Reading fits result value) (hiff : fits ↔ also) : Reading also result value :=
  propext hiff ▸ h

theorem bind {next : α → Except Refusal β} {final : β} (h : Reading fits result value)
    (hnext : Reading also (next value) final) : Reading (fits ∧ also) (result >>= next) final := by
  constructor
  · rintro ⟨hfits, halso⟩
    rw [h.ok hfits]
    exact hnext.ok halso
  · intro hnot
    by_cases hfits : fits
    · rw [h.ok hfits]
      exact hnext.deep fun halso => hnot ⟨hfits, halso⟩
    · obtain ⟨unread, herror⟩ := h.deep hfits
      exact ⟨unread, by rw [herror]; rfl⟩

/-- A last step that cannot fail. -/
theorem map {next : α → Except Refusal β} {final : β} (h : Reading fits result value)
    (hnext : next value = .ok final) : Reading fits (result >>= next) final :=
  (h.bind (of_ok hnext)).congr (and_iff_left trivial)

end Reading

/-- A sound text gives the value or is too deep, and any other text is refused. -/
structure Verdict {α : Type} (sound fits : Prop) (result : Except Refusal α) (value : α) :
    Prop where
  reading : sound → Reading fits result value
  refuses : ¬ sound → ∃ refusal, result = .error refusal

namespace Verdict

variable {α β : Type} {sound others fits also : Prop} {result : Except Refusal α} {value : α}

theorem of_reading (h : Reading fits result value) : Verdict True fits result value :=
  ⟨fun _ => h, fun hnot => absurd trivial hnot⟩

theorem of_ok (h : result = .ok value) : Verdict True True result value :=
  of_reading (.of_ok h)

theorem of_error (hsound : ¬ sound) (h : ∃ refusal, result = .error refusal) :
    Verdict sound fits result value :=
  ⟨fun hs => absurd hs hsound, fun _ => h⟩

theorem congr (h : Verdict sound fits result value) (hsound : sound ↔ others)
    (hfits : others → (fits ↔ also)) : Verdict others also result value :=
  ⟨fun ho => (h.reading (hsound.mpr ho)).congr (hfits ho), fun hnot => h.refuses (hnot ∘ hsound.mp)⟩

theorem bind {next : α → Except Refusal β} {final : β} (h : Verdict sound fits result value)
    (hnext : Verdict others also (next value) final) :
    Verdict (sound ∧ others) (fits ∧ also) (result >>= next) final := by
  refine ⟨fun ⟨hsound, hothers⟩ => (h.reading hsound).bind (hnext.reading hothers), fun hnot => ?_⟩
  have herror {refusal : Refusal} (hr : result = .error refusal) :
      ∃ refusal, (result >>= next) = .error refusal := ⟨refusal, by rw [hr]; rfl⟩
  by_cases hsound : sound
  · by_cases hfits : fits
    · rw [(h.reading hsound).ok hfits]
      exact hnext.refuses fun hothers => hnot ⟨hsound, hothers⟩
    · obtain ⟨unread, hdeep⟩ := (h.reading hsound).deep hfits
      exact herror hdeep
  · obtain ⟨refusal, hrefused⟩ := h.refuses hsound
    exact herror hrefused

/-- A last step that cannot fail. -/
theorem map {next : α → Except Refusal β} {final : β} (h : Verdict sound fits result value)
    (hnext : next value = .ok final) : Verdict sound fits (result >>= next) final :=
  (h.bind (of_ok hnext)).congr (and_iff_left trivial) fun _ => and_iff_left trivial

/-- Only a sound text that fits can be read, and only as the value. -/
theorem of_result {read : α} (h : Verdict sound fits result value) (hread : result = .ok read) :
    sound ∧ fits ∧ read = value := by
  by_cases hsound : sound
  · by_cases hfits : fits
    · rw [(h.reading hsound).ok hfits] at hread
      exact ⟨hsound, hfits, (Except.ok.inj hread).symm⟩
    · obtain ⟨unread, hdeep⟩ := (h.reading hsound).deep hfits
      rw [hdeep] at hread
      cases hread
  · obtain ⟨refusal, hrefused⟩ := h.refuses hsound
    rw [hrefused] at hread
    cases hread

end Verdict

/-! ## Blanks -/

/-- What may stand between two tokens. -/
structure Gap where
  chars : List Char
  blank : ∀ c ∈ chars, isBlank c

theorem skipBlanks_gap (gap : Gap) (rest : List Char) :
    skipBlanks (gap.chars ++ rest) = skipBlanks rest :=
  List.dropWhile_append_of_pos gap.blank

theorem skipBlanks_cons {c : Char} (h : isBlank c = false) (rest : List Char) :
    skipBlanks (c :: rest) = c :: rest := by
  simp [skipBlanks, h]

theorem Gap.delimited (gap : Gap) {rest : List Char} (h : Delimited rest) :
    Delimited (gap.chars ++ rest) := by
  obtain ⟨chars, hblank⟩ := gap
  cases chars with
  | nil => exact h
  | cons c chars => exact .cons (.inl (hblank c List.mem_cons_self)) _

/-- The text starts like a value: with no blank and no closing bracket. -/
def Opens (text : List Char) : Prop :=
  ∃ c rest, text = c :: rest ∧ isBlank c = false ∧ c ≠ ']' ∧ c ≠ '\x7d'

theorem Opens.append {text : List Char} (h : Opens text) (rest : List Char) :
    Opens (text ++ rest) := by
  obtain ⟨c, more, rfl, hc⟩ := h
  exact ⟨c, more ++ rest, rfl, hc⟩

theorem Opens.skipBlanks {text : List Char} (h : Opens text) : skipBlanks text = text := by
  obtain ⟨c, rest, rfl, hblank, -⟩ := h
  exact skipBlanks_cons hblank rest

/-! ## Bracketed text -/

/-- An entry with the blanks around it. -/
structure Padded (β : Type) where
  before : Gap
  entry : β
  after : Gap

/-- The entry as it stands in front of the rest. -/
def Padded.onto {β : Type} (write : β → List Char) (padded : Padded β) (rest : List Char) :
    List Char :=
  padded.before.chars ++ (write padded.entry ++ (padded.after.chars ++ rest))

section Bracketed

variable {β : Type} (close : Char) (write : β → List Char) (final : Gap)

/-- What stands after an entry: the further ones, each behind a comma, and the closing bracket. -/
def moreText : List (Padded β) → List Char
  | [] => final.chars ++ [close]
  | padded :: entries => ',' :: padded.onto write (moreText entries)

/-- What stands after the opening bracket of a list or an object. -/
def bracketedText : List (Padded β) → List Char
  | [] => final.chars ++ [close]
  | padded :: entries => padded.onto write (moreText close write final entries)

theorem Padded.onto_append (padded : Padded β) (text rest : List Char) :
    padded.onto write text ++ rest = padded.onto write (text ++ rest) := by
  simp only [Padded.onto, List.append_assoc]

theorem Padded.length_onto (padded : Padded β) (rest : List Char) :
    (write padded.entry).length + rest.length ≤ (padded.onto write rest).length := by
  simp only [Padded.onto, List.length_append]
  omega

theorem length_moreText (entries : List (Padded β)) :
    entries.length < (moreText close write final entries).length ∧
      ∀ padded ∈ entries,
        (write padded.entry).length ≤ (moreText close write final entries).length := by
  induction entries with
  | nil => simp [moreText]
  | cons padded entries ih =>
    have hlength := padded.length_onto write (moreText close write final entries)
    simp only [moreText, List.length_cons, List.forall_mem_cons]
    refine ⟨by omega, by omega, fun other ho => ?_⟩
    have hother := ih.2 other ho
    omega

theorem length_bracketedText (entries : List (Padded β)) :
    entries.length ≤ (bracketedText close write final entries).length ∧
      ∀ padded ∈ entries,
        (write padded.entry).length ≤ (bracketedText close write final entries).length := by
  cases entries with
  | nil => simp
  | cons padded entries =>
    have hlength := padded.length_onto write (moreText close write final entries)
    have hmore := length_moreText close write final entries
    simp only [bracketedText, List.length_cons, List.forall_mem_cons]
    refine ⟨by omega, by omega, fun other ho => ?_⟩
    have hother := hmore.2 other ho
    omega

variable {close write final}

/-- A value can end where more entries follow, or the closing bracket. -/
theorem delimited_moreText (hclose : close = ']' ∨ close = '\x7d') (entries : List (Padded β))
    (rest : List Char) : Delimited (moreText close write final entries ++ rest) := by
  cases entries with
  | nil =>
    rw [moreText, List.append_assoc]
    exact final.delimited (.cons (.inr (.inr hclose)) rest)
  | cons padded entries => exact .cons (.inr (.inl rfl)) _

end Bracketed

/-! ## Lists -/

section Items

variable {α β : Type} {item : List Char → Except Refusal (α × List Char)} {write : β → List Char}
  {read : β → α} {sound fits : β → Prop} {limit : Nat} {final : Gap}

/-- It is known what the reader makes of the text of the entry. -/
structure ReadsItem (item : List Char → Except Refusal (α × List Char)) (write : β → List Char)
    (read : β → α) (sound fits : β → Prop) (entry : β) : Prop where
  opens : Opens (write entry)
  reads {rest : List Char} (hrest : Delimited rest) :
    Verdict (sound entry) (fits entry) (item (write entry ++ rest)) (read entry, rest)

theorem readMoreItems_comma {gap : Gap} {text : List Char} (h : Opens text) :
    readMoreItems item (limit + 1) (',' :: (gap.chars ++ text)) = (do
      let (first, rest) ← item text
      let (more, rest) ← readMoreItems item limit rest
      .ok (first :: more, rest)) := by
  rw [readMoreItems, skipBlanks_cons (by decide)]
  simp only [skipBlanks_gap, h.skipBlanks]
  obtain ⟨c, rest, rfl, -, hc, -⟩ := h
  split
  · rename_i heq
    cases heq
  · rename_i heq
    exact absurd (List.cons.inj heq).1 hc
  · rfl

/-- Blanks before a comma or a closing bracket do not matter. -/
theorem readMoreItems_gap (gap : Gap) (text : List Char) :
    readMoreItems item limit (gap.chars ++ text) = readMoreItems item limit text := by
  cases limit with
  | zero => rfl
  | succ limit => simp only [readMoreItems, skipBlanks_gap]

theorem readMoreItems_text {entries : List (Padded β)}
    (h : ∀ padded ∈ entries, ReadsItem item write read sound fits padded.entry)
    (hlimit : entries.length < limit) (rest : List Char) :
    Verdict (∀ padded ∈ entries, sound padded.entry) (∀ padded ∈ entries, fits padded.entry)
      (readMoreItems item limit (moreText ']' write final entries ++ rest))
      (entries.map fun padded => read padded.entry, rest) := by
  induction entries generalizing limit with
  | nil =>
    cases limit with
    | zero => cases hlimit
    | succ limit =>
      refine (Verdict.of_ok ?_).congr (by simp) (by simp)
      rw [moreText, List.append_assoc, readMoreItems_gap, readMoreItems]
      rfl
  | cons padded entries ih =>
    cases limit with
    | zero => cases hlimit
    | succ limit =>
      obtain ⟨hentry, hentries⟩ := List.forall_mem_cons.mp h
      have hmore := ih hentries (Nat.lt_of_succ_lt_succ hlimit)
      have hrest : Delimited (moreText ']' write final entries ++ rest) :=
        delimited_moreText (.inl rfl) entries rest
      rw [← readMoreItems_gap padded.after] at hmore
      rw [moreText, List.cons_append, Padded.onto_append, Padded.onto,
        readMoreItems_comma (hentry.opens.append _), List.forall_mem_cons, List.forall_mem_cons]
      refine (hentry.reads (padded.after.delimited hrest)).bind (hmore.map ?_)
      rfl

/-- The items of a list, read after its opening bracket. -/
theorem readItems_text {entries : List (Padded β)}
    (h : ∀ padded ∈ entries, (write padded.entry).length ≤ limit →
      ReadsItem item write read sound fits padded.entry)
    (hlimit : (bracketedText ']' write final entries).length ≤ limit) (rest : List Char) :
    Verdict (∀ padded ∈ entries, sound padded.entry) (∀ padded ∈ entries, fits padded.entry)
      (readItems item limit (bracketedText ']' write final entries ++ rest))
      (entries.map fun padded => read padded.entry, rest) := by
  obtain ⟨hcount, hlength⟩ := length_bracketedText ']' write final entries
  have hread : ∀ padded ∈ entries, ReadsItem item write read sound fits padded.entry :=
    fun padded hp => h padded hp (Nat.le_trans (hlength padded hp) hlimit)
  cases entries with
  | nil =>
    refine (Verdict.of_ok ?_).congr (by simp) (by simp)
    rw [bracketedText, List.append_assoc, readItems, skipBlanks_gap]
    rfl
  | cons padded entries =>
    obtain ⟨hentry, hentries⟩ := List.forall_mem_cons.mp hread
    have hmore : Verdict _ _
        (readMoreItems item limit (moreText ']' write final entries ++ rest)) _ :=
      readMoreItems_text hentries (Nat.lt_of_succ_le (Nat.le_trans hcount hlimit)) rest
    have hrest : Delimited (moreText ']' write final entries ++ rest) :=
      delimited_moreText (.inl rfl) entries rest
    rw [← readMoreItems_gap padded.after] at hmore
    have hopens := hentry.opens.append (padded.after.chars ++
      (moreText ']' write final entries ++ rest))
    rw [bracketedText, Padded.onto_append, Padded.onto, readItems, skipBlanks_gap,
      hopens.skipBlanks, List.forall_mem_cons, List.forall_mem_cons]
    obtain ⟨c, tail, heq, -, hc, -⟩ := hopens
    split
    · rename_i hnil
      cases heq.symm.trans hnil
    · rename_i hclose
      exact absurd (List.cons.inj (heq.symm.trans hclose)).1 hc
    · refine (hentry.reads (padded.after.delimited hrest)).bind (hmore.map ?_)
      rfl

end Items

/-! ## Objects -/

/-- A member as it stands in a text: what is between the quotes of its key, the blanks around the
colon, and the value. -/
structure MemberText where
  key : List Char
  before : Gap
  after : Gap
  value : List Char

namespace MemberText

/-- What follows the key. -/
def tail (text : MemberText) : List Char :=
  text.before.chars ++ ':' :: (text.after.chars ++ text.value)

def chars (text : MemberText) : List Char :=
  '"' :: (text.key ++ '"' :: text.tail)

theorem length_value (text : MemberText) : text.value.length ≤ text.chars.length := by
  simp only [chars, tail, List.length_cons, List.length_append]
  omega

theorem tail_append (text : MemberText) (rest : List Char) :
    text.tail ++ rest = text.before.chars ++ ':' :: (text.after.chars ++ (text.value ++ rest)) := by
  simp only [tail, List.append_assoc, List.cons_append]

theorem readColon_tail (text : MemberText) (rest : List Char) :
    readColon (text.tail ++ rest) = .ok (text.after.chars ++ (text.value ++ rest)) := by
  rw [tail_append, readColon, skipBlanks_gap]
  rfl

end MemberText

/-- The property holds of every entry and the entries in front of it. -/
def Throughout {β : Type} (holds : List β → β → Prop) : (before entries : List β) → Prop
  | _, [] => True
  | before, entry :: entries => holds before entry ∧ Throughout holds (before ++ [entry]) entries

/-- If the entry has this key, then no entry before it has, and the entry has the property. -/
def FirstOf {β : Type} (key : β → String) (name : String) (holds : β → Prop) (before : List β)
    (entry : β) : Prop :=
  key entry = name → (∀ other ∈ before, key other ≠ name) ∧ holds entry

/-- At most one entry has this key, and that one has the property. -/
theorem throughout_firstOf {β : Type} {key : β → String} {name : String} {holds : β → Prop}
    {before entries : List β} :
    Throughout (FirstOf key name holds) before entries ↔
      entries.filter (fun entry => key entry = name) = [] ∨
        (∀ other ∈ before, key other ≠ name) ∧
          ∃ entry, entries.filter (fun entry => key entry = name) = [entry] ∧ holds entry := by
  induction entries generalizing before with
  | nil => simp [Throughout]
  | cons entry entries ih =>
    rw [Throughout, ih, List.forall_mem_append, List.forall_mem_singleton, FirstOf]
    by_cases hkey : key entry = name
    · have hfilter : (entry :: entries).filter (fun entry => key entry = name) =
          entry :: entries.filter (fun entry => key entry = name) := by simp [hkey]
      simp only [hfilter, hkey, ne_eq, not_true_eq_false, and_false, false_and, or_false,
        forall_const, List.cons.injEq, reduceCtorEq, false_or]
      constructor
      · rintro ⟨⟨hbefore, hentry⟩, hnone⟩
        exact ⟨hbefore, entry, ⟨rfl, hnone⟩, hentry⟩
      · rintro ⟨hbefore, _, ⟨rfl, hnone⟩, hentry⟩
        exact ⟨⟨hbefore, hentry⟩, hnone⟩
    · simp [hkey]

section Members

variable {σ β : Type} {member : σ → String → List Char → Except Refusal (σ × List Char)}
  {key : β → String} {layout : β → MemberText} {state : List β → σ}
  {sound : List β → β → Prop} {fits : β → Prop} {limit : Nat} {final : Gap}

/-- It is known what the reader makes of what follows the key, in the state that the members before
lead to. -/
def ReadsMember (member : σ → String → List Char → Except Refusal (σ × List Char))
    (key : β → String) (layout : β → MemberText) (state : List β → σ) (sound : List β → β → Prop)
    (fits : β → Prop) (entry : β) : Prop :=
  ∀ (before : List β) {rest : List Char}, Delimited rest →
    Verdict (sound before entry) (fits entry)
      (member (state before) (key entry) ((layout entry).tail ++ rest))
      (state (before ++ [entry]), rest)

theorem readKeyed_chars {name : String} {text : MemberText} (h : Spelled name.toList text.key)
    (before : σ) (rest : List Char) :
    readKeyed member before (text.key ++ '"' :: (text.tail ++ rest)) =
      member before name (text.tail ++ rest) := by
  rw [readKeyed, readString_spelled h]
  rfl

theorem readMoreMembers_gap (gap : Gap) (before : σ) (text : List Char) :
    readMoreMembers member limit before (gap.chars ++ text) =
      readMoreMembers member limit before text := by
  cases limit with
  | zero => rfl
  | succ limit => simp only [readMoreMembers, skipBlanks_gap]

theorem readMoreMembers_text {entries : List (Padded β)}
    (hkeys : ∀ padded ∈ entries,
      Spelled (key padded.entry).toList (layout padded.entry).key)
    (h : ∀ padded ∈ entries, ReadsMember member key layout state sound fits padded.entry)
    (hlimit : entries.length < limit) (before : List β) (rest : List Char) :
    Verdict (Throughout sound before (entries.map Padded.entry))
      (∀ padded ∈ entries, fits padded.entry)
      (readMoreMembers member limit (state before)
        (moreText '\x7d' (fun entry => (layout entry).chars) final entries ++ rest))
      (state (before ++ entries.map Padded.entry), rest) := by
  induction entries generalizing limit before with
  | nil =>
    cases limit with
    | zero => cases hlimit
    | succ limit =>
      refine (Verdict.of_ok ?_).congr (by simp [Throughout]) (by simp)
      rw [moreText, List.append_assoc, readMoreMembers_gap, readMoreMembers, List.map_nil,
        List.append_nil]
      rfl
  | cons padded entries ih =>
    cases limit with
    | zero => cases hlimit
    | succ limit =>
      obtain ⟨hkey, hkeys⟩ := List.forall_mem_cons.mp hkeys
      obtain ⟨hentry, hentries⟩ := List.forall_mem_cons.mp h
      have hmore := ih hkeys hentries (Nat.lt_of_succ_lt_succ hlimit) (before ++ [padded.entry])
      have hrest : Delimited
          (moreText '\x7d' (fun entry => (layout entry).chars) final entries ++ rest) :=
        delimited_moreText (.inr rfl) entries rest
      rw [← readMoreMembers_gap padded.after, List.append_assoc] at hmore
      rw [moreText, List.cons_append, Padded.onto_append, Padded.onto, readMoreMembers,
        skipBlanks_cons (by decide), List.forall_mem_cons, List.map_cons, Throughout]
      simp only [skipBlanks_gap, MemberText.chars, List.cons_append, List.append_assoc]
      rw [skipBlanks_cons (by decide)]
      simp only [readKeyed_chars hkey]
      exact (hentry before (padded.after.delimited hrest)).bind hmore

/-- The members of an object, read after its opening bracket. -/
theorem readMembers_text {entries : List (Padded β)}
    (hkeys : ∀ padded ∈ entries,
      Spelled (key padded.entry).toList (layout padded.entry).key)
    (h : ∀ padded ∈ entries, (layout padded.entry).value.length ≤ limit →
      ReadsMember member key layout state sound fits padded.entry)
    (hlimit : (bracketedText '\x7d' (fun entry => (layout entry).chars) final entries).length ≤
      limit) (rest : List Char) :
    Verdict (Throughout sound [] (entries.map Padded.entry)) (∀ padded ∈ entries, fits padded.entry)
      (readMembers member limit (state [])
        (bracketedText '\x7d' (fun entry => (layout entry).chars) final entries ++ rest))
      (state (entries.map Padded.entry), rest) := by
  obtain ⟨hcount, hlength⟩ :=
    length_bracketedText '\x7d' (fun entry => (layout entry).chars) final entries
  have hread : ∀ padded ∈ entries, ReadsMember member key layout state sound fits padded.entry :=
    fun padded hp => h padded hp (Nat.le_trans (layout padded.entry).length_value
      (Nat.le_trans (hlength padded hp) hlimit))
  cases entries with
  | nil =>
    refine (Verdict.of_ok ?_).congr (by simp [Throughout]) (by simp)
    rw [bracketedText, List.append_assoc, readMembers, skipBlanks_gap]
    rfl
  | cons padded entries =>
    obtain ⟨hkey, hkeys⟩ := List.forall_mem_cons.mp hkeys
    obtain ⟨hentry, hentries⟩ := List.forall_mem_cons.mp hread
    have hmore : Verdict _ _ (readMoreMembers member limit (state [padded.entry])
        (moreText '\x7d' (fun entry => (layout entry).chars) final entries ++ rest)) _ :=
      readMoreMembers_text hkeys hentries (Nat.lt_of_succ_le (Nat.le_trans hcount hlimit))
        [padded.entry] rest
    have hrest : Delimited
        (moreText '\x7d' (fun entry => (layout entry).chars) final entries ++ rest) :=
      delimited_moreText (.inr rfl) entries rest
    rw [← readMoreMembers_gap padded.after] at hmore
    rw [bracketedText, Padded.onto_append, Padded.onto, readMembers, skipBlanks_gap,
      List.forall_mem_cons, List.map_cons, Throughout]
    simp only [MemberText.chars, List.cons_append, List.append_assoc]
    rw [skipBlanks_cons (by decide)]
    simp only [readKeyed_chars hkey]
    exact (hentry [] (padded.after.delimited hrest)).bind hmore

end Members

end ShaderScript.Json
