import ShaderScript.Proofs.Json.Values

/-!
# Skipped text

A value that nobody asks for is skipped, whatever its numbers are and its strings write. Skipping
ends right behind the value, and takes at most two steps for each of its characters.
-/

namespace ShaderScript.Json

/-! ## Steps -/

section Steps

variable {steps : Nat} {enclosing : List Bracket} {bracket : Bracket}

theorem skipFrom_before_gap (gap : Gap) (text : List Char) :
    skipFrom steps .before enclosing (gap.chars ++ text) =
      skipFrom steps .before enclosing text := by
  cases steps with
  | zero => rfl
  | succ steps => simp only [skipFrom, skipBlanks_gap]

theorem skipFrom_after_gap (gap : Gap) (text : List Char) :
    skipFrom steps .after (bracket :: enclosing) (gap.chars ++ text) =
      skipFrom steps .after (bracket :: enclosing) text := by
  cases steps with
  | zero => rfl
  | succ steps => simp only [skipFrom, skipBlanks_gap]

theorem skipFrom_opened_gap (gap : Gap) (text : List Char) :
    skipFrom steps (.opened bracket) enclosing (gap.chars ++ text) =
      skipFrom steps (.opened bracket) enclosing text := by
  cases steps with
  | zero => rfl
  | succ steps => simp only [skipFrom, skipBlanks_gap]

theorem skipFrom_scalar {c : Char} {text rest : List Char} (hblank : isBlank c = false)
    (hlist : c ≠ '[') (hobject : c ≠ '\x7b') (h : skipScalar? (c :: text) = some (.ok rest)) :
    skipFrom (steps + 1) .before enclosing (c :: text) = skipFrom steps .after enclosing rest := by
  rw [skipFrom, skipBlanks_cons hblank]
  split
  · rename_i heq
    cases heq
  · rename_i heq
    exact absurd (List.cons.inj heq).1 hlist
  · rename_i heq
    exact absurd (List.cons.inj heq).1 hobject
  · rw [h]
    rfl

end Steps

/-! ## Entries -/

/-- The text is skipped in at most two steps for each of its characters. -/
def Skips (text : List Char) : Prop :=
  ∃ cost ≤ 2 * text.length, ∀ steps enclosing {rest}, Delimited rest →
    skipFrom (steps + cost) .before enclosing (text ++ rest) = skipFrom steps .after enclosing rest

section Entries

variable {β : Type} {bracket : Bracket} {write value : β → List Char} {final : Gap}

/-- The entry of a list or an object is skipped: what stands before its value, and its value. -/
structure SkipsEntry (bracket : Bracket) (write value : β → List Char) (entry : β) : Prop where
  opens : Opens (write entry)
  enters (gap : Gap) (rest : List Char) : ∃ lead : Gap,
    bracket.toEntry (gap.chars ++ (write entry ++ rest)) = .ok (lead.chars ++ (value entry ++ rest))
  length_le : (value entry).length ≤ (write entry).length
  skips : Skips (value entry)

namespace Bracket

def opening : Bracket → Char
  | list => '['
  | object => '\x7b'

theorem closing_cases (bracket : Bracket) :
    bracket.closing = ']' ∨ bracket.closing = '\x7d' := by
  cases bracket <;> simp [closing]

theorem closing_not_blank (bracket : Bracket) : isBlank bracket.closing = false := by
  cases bracket <;> rfl

end Bracket

theorem skipFrom_more {entries : List (Padded β)}
    (h : ∀ padded ∈ entries, SkipsEntry bracket write value padded.entry) :
    ∃ cost ≤ 2 * (moreText bracket.closing write final entries).length, ∀ steps enclosing rest,
      skipFrom (steps + cost) .after (bracket :: enclosing)
        (moreText bracket.closing write final entries ++ rest) =
          skipFrom steps .after enclosing rest := by
  have hclose := bracket.closing_cases
  induction entries with
  | nil =>
    refine ⟨1, by simp [moreText]; omega, fun steps enclosing rest => ?_⟩
    rw [moreText, List.append_assoc, skipFrom_after_gap, List.cons_append, skipFrom,
      skipBlanks_cons bracket.closing_not_blank]
    exact if_pos rfl
  | cons padded entries ih =>
    obtain ⟨hentry, hentries⟩ := List.forall_mem_cons.mp h
    obtain ⟨more, hmore, hrest⟩ := ih hentries
    obtain ⟨cost, hcost, hvalue⟩ := hentry.skips
    have hlength := padded.length_onto write (moreText bracket.closing write final entries)
    have hle := hentry.length_le
    refine ⟨more + cost + 1, by simp only [moreText, List.length_cons]; omega,
      fun steps enclosing rest => ?_⟩
    have hdelimited : Delimited (moreText bracket.closing write final entries ++ rest) :=
      delimited_moreText hclose entries rest
    have hcomma : ',' ≠ bracket.closing := by cases bracket <;> decide
    obtain ⟨lead, henter⟩ := hentry.enters padded.before
      (padded.after.chars ++ (moreText bracket.closing write final entries ++ rest))
    rw [moreText, List.cons_append, Padded.onto_append, Padded.onto, ← Nat.add_assoc, skipFrom,
      skipBlanks_cons (by decide)]
    simp only [if_neg hcomma, if_true, henter, bind, Except.bind]
    rw [skipFrom_before_gap, ← Nat.add_assoc, hvalue _ _ (padded.after.delimited hdelimited),
      skipFrom_after_gap, hrest]

theorem skipFrom_opening (steps : Nat) (enclosing : List Bracket) (text : List Char) :
    skipFrom (steps + 1) .before enclosing (bracket.opening :: text) =
      skipFrom steps (.opened bracket) enclosing text := by
  cases bracket <;>
  · rw [skipFrom, Bracket.opening, skipBlanks_cons (by decide)]
    rfl

theorem skipFrom_opened_entry {steps : Nat} {enclosing : List Bracket} {text rest : List Char}
    (hopens : Opens text) (h : bracket.toEntry text = .ok rest) :
    skipFrom (steps + 1) (.opened bracket) enclosing text =
      skipFrom steps .before (bracket :: enclosing) rest := by
  rw [skipFrom, hopens.skipBlanks]
  obtain ⟨c, tail, rfl, -, hlist, hobject⟩ := hopens
  have hclose : c ≠ bracket.closing := by cases bracket <;> assumption
  simp only [if_neg hclose, h]
  rfl

theorem skips_bracketed {entries : List (Padded β)}
    (h : ∀ padded ∈ entries, SkipsEntry bracket write value padded.entry) :
    Skips (bracket.opening :: bracketedText bracket.closing write final entries) := by
  cases entries with
  | nil =>
    refine ⟨1 + 1, by simp only [List.length_cons]; omega, fun steps enclosing rest _ => ?_⟩
    rw [List.cons_append, ← Nat.add_assoc, skipFrom_opening, bracketedText, List.append_assoc,
      List.cons_append, skipFrom, skipBlanks_gap, skipBlanks_cons bracket.closing_not_blank]
    exact if_pos rfl
  | cons padded entries =>
    obtain ⟨hentry, hentries⟩ := List.forall_mem_cons.mp h
    have hloop : ∃ cost ≤ 2 * (moreText bracket.closing write final entries).length, _ :=
      skipFrom_more hentries
    obtain ⟨more, hmore, hrest⟩ := hloop
    obtain ⟨cost, hcost, hvalue⟩ := hentry.skips
    have hlength := padded.length_onto write (moreText bracket.closing write final entries)
    have hle := hentry.length_le
    refine ⟨more + cost + 1 + 1, by simp only [bracketedText, List.length_cons]; omega,
      fun steps enclosing rest _ => ?_⟩
    have hdelimited : Delimited (moreText bracket.closing write final entries ++ rest) :=
      delimited_moreText bracket.closing_cases entries rest
    obtain ⟨lead, henter⟩ := hentry.enters .empty
      (padded.after.chars ++ (moreText bracket.closing write final entries ++ rest))
    rw [List.cons_append, ← Nat.add_assoc, skipFrom_opening, bracketedText, Padded.onto_append,
      Padded.onto, ← Nat.add_assoc, skipFrom_opened_gap,
      skipFrom_opened_entry (hentry.opens.append _) henter, skipFrom_before_gap, ← Nat.add_assoc,
      hvalue _ _ (padded.after.delimited hdelimited), skipFrom_after_gap, hrest]

end Entries

/-! ## Values -/

theorem skipsEntry_item {β : Type} {write : β → List Char} {entry : β} (h : JsonText (write entry))
    (hskips : Skips (write entry)) : SkipsEntry .list write write entry :=
  ⟨h.opens, fun gap _ => ⟨gap, rfl⟩, Nat.le_refl _, hskips⟩

theorem skipsEntry_member {β : Type} {layout : β → MemberText} {entry : β}
    (hkey : StringText (layout entry).key) (hskips : Skips (layout entry).value) :
    SkipsEntry .object (fun entry => (layout entry).chars) (fun entry => (layout entry).value)
      entry where
  opens := ⟨'"', _, rfl, by decide⟩
  enters gap rest := by
    refine ⟨(layout entry).after, ?_⟩
    rw [Bracket.toEntry, skipKey, skipBlanks_gap, MemberText.chars, List.cons_append,
      List.append_assoc, List.cons_append, skipBlanks_cons (by decide)]
    simp only [skipStringFrom_text hkey, bind, Except.bind, MemberText.readColon_tail]
  length_le := (layout entry).length_value
  skips := hskips

theorem JsonText.skips {text : List Char} (h : JsonText text) : Skips text := by
  induction h with
  | word h =>
    simp only [List.mem_cons, List.not_mem_nil, or_false] at h
    rcases h with rfl | rfl | rfl <;>
      exact ⟨1, by decide, fun _ _ _ _ => skipFrom_scalar (by decide) (by decide) (by decide) rfl⟩
  | str h =>
    refine ⟨1, by simp; omega, fun steps enclosing rest _ => ?_⟩
    rw [List.cons_append]
    refine skipFrom_scalar (by decide) (by decide) (by decide) ?_
    rw [skipScalar?, List.append_assoc, List.cons_append, List.nil_append, skipStringFrom_text h]
  | num h =>
    obtain ⟨c, more, rfl, hblank, hbracket⟩ := h.first
    simp only [List.mem_cons, not_or] at hbracket
    refine ⟨1, by simp; omega, fun steps enclosing rest hrest => ?_⟩
    exact skipFrom_scalar hblank hbracket.1 hbracket.2.2.1 (skipScalar?_numeral h hrest)
  | arr h ih => exact skips_bracketed fun padded hp => skipsEntry_item (h padded hp) (ih padded hp)
  | obj hkeys h ih =>
    exact skips_bracketed fun padded hp => skipsEntry_member (hkeys padded hp) (ih padded hp)

/-- A value is skipped, up to what follows it. -/
theorem skipValue_text {text : List Char} (h : JsonText text) {limit : Nat}
    (hlimit : text.length ≤ limit) {rest : List Char} (hrest : Delimited rest) (gap : Gap) :
    skipValue limit (gap.chars ++ (text ++ rest)) = .ok rest := by
  obtain ⟨cost, hcost, hskip⟩ := h.skips
  obtain ⟨steps, hsteps⟩ : ∃ steps, 2 * limit + 2 = steps + 1 + cost :=
    ⟨2 * limit + 1 - cost, by omega⟩
  rw [skipValue, skipFrom_before_gap, hsteps, hskip _ _ hrest, skipFrom]

end ShaderScript.Json
