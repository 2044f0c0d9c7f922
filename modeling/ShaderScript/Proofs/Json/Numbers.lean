import ShaderScript.Json.Skip

/-!
# Numbers

A number in a text ends where something stands that cannot go on with it. So it is read there as it
is read on its own, and a numeral is skipped whatever its size.
-/

namespace ShaderScript.Json

/-- What can follow a value: nothing, a blank, a comma or a closing bracket. -/
def Delimited (rest : List Char) : Prop :=
  ∀ c ∈ rest.head?, isBlank c ∨ c = ',' ∨ c = ']' ∨ c = '\x7d'

namespace Delimited

variable {rest : List Char}

theorem nil : Delimited [] :=
  nofun

theorem cons {c : Char} (h : isBlank c ∨ c = ',' ∨ c = ']' ∨ c = '\x7d') (rest : List Char) :
    Delimited (c :: rest) := by
  intro first hfirst
  cases hfirst
  exact h

/-- A number does not go on there. -/
theorem head_ne {c : Char} (h : Delimited rest) (hc : c ∈ rest.head?) :
    c.isDigit = false ∧ c ≠ '.' ∧ c ≠ 'e' ∧ c ≠ 'E' := by
  have hclose : ∀ c ∈ [' ', '\n', '\t', '\r', ',', ']', '\x7d'],
      c.isDigit = false ∧ c ≠ '.' ∧ c ≠ 'e' ∧ c ≠ 'E' := by simp
  refine hclose c ?_
  have hfollow := h c hc
  simp only [isBlank, Bool.or_eq_true, beq_iff_eq] at hfollow
  simpa [or_assoc] using hfollow

/-- If a number can go on with the character, then the character does not stem from the rest. -/
theorem starts {text more : List Char} {c : Char} (h : Delimited rest)
    (hc : c.isDigit ∨ c = '.' ∨ c = 'e' ∨ c = 'E') (heq : text ++ rest = c :: more) :
    ∃ tail, text = c :: tail := by
  cases text with
  | nil =>
    have hhead : c ∈ rest.head? := by
      rw [List.nil_append] at heq
      rw [heq]
      rfl
    obtain ⟨hdigit, hpoint, hlower, hupper⟩ := h.head_ne hhead
    simp [hdigit, hpoint, hlower, hupper] at hc
  | cons first tail => exact ⟨tail, by rw [(List.cons.inj heq).1]⟩

theorem takeWhile_digits (h : Delimited rest) (text : List Char) :
    (text ++ rest).takeWhile Char.isDigit = text.takeWhile Char.isDigit := by
  induction text with
  | nil =>
    cases rest with
    | nil => rfl
    | cons c rest => simp [(h.head_ne rfl).1]
  | cons c text ih =>
    cases hdigit : c.isDigit <;> simp [hdigit, ih]

theorem dropWhile_digits (h : Delimited rest) (text : List Char) :
    (text ++ rest).dropWhile Char.isDigit = text.dropWhile Char.isDigit ++ rest := by
  induction text with
  | nil =>
    cases rest with
    | nil => rfl
    | cons c rest => simp [(h.head_ne rfl).1]
  | cons c text ih =>
    cases hdigit : c.isDigit <;> simp [hdigit, ih]

end Delimited

/-! ## Reading -/

section Reading

variable {rest text left : List Char} {number : Number}

theorem finishDecimal_append {decimal : Decimal}
    (h : finishDecimal decimal text = .ok (number, left)) :
    finishDecimal decimal (text ++ rest) = .ok (number, left ++ rest) := by
  unfold finishDecimal at h ⊢
  split at h
  · rename_i hrange
    rw [if_pos hrange]
    cases h
    rfl
  · cases h

theorem readExponentDigits_append (hrest : Delimited rest) {mantissa : Decimal} {down : Bool}
    (h : readExponentDigits mantissa down text = .ok (number, left)) :
    readExponentDigits mantissa down (text ++ rest) = .ok (number, left ++ rest) := by
  cases text with
  | nil => cases h
  | cons c text =>
    rw [readExponentDigits] at h
    rw [List.cons_append, readExponentDigits, ← List.cons_append]
    simp only [hrest.takeWhile_digits, hrest.dropWhile_digits] at h ⊢
    split at h
    · rename_i hdigit
      rw [if_pos hdigit]
      split at h
      · exact finishDecimal_append h
      · split at h
        · rename_i hzero
          rw [if_pos hzero]
          cases h
          rfl
        · cases h
    · cases h

theorem readExponent_append (hrest : Delimited rest) {mantissa : Decimal}
    (h : readExponent mantissa text = .ok (number, left)) :
    readExponent mantissa (text ++ rest) = .ok (number, left ++ rest) := by
  unfold readExponent at h
  split at h
  · exact readExponentDigits_append hrest h
  · exact readExponentDigits_append hrest h
  · rename_i hplus hminus
    have hdigits := readExponentDigits_append hrest h
    cases text with
    | nil => cases h
    | cons c text =>
      unfold readExponent
      split
      · rename_i heq
        exact absurd (by rw [(List.cons.inj heq).1]) (hplus text)
      · rename_i heq
        exact absurd (by rw [(List.cons.inj heq).1]) (hminus text)
      · exact hdigits

theorem readFraction_append (hrest : Delimited rest) {whole : Decimal}
    (h : readFraction whole text = .ok (number, left)) :
    readFraction whole (text ++ rest) = .ok (number, left ++ rest) := by
  unfold readFraction at h ⊢
  simp only [hrest.takeWhile_digits, hrest.dropWhile_digits] at h ⊢
  split at h
  · split at h <;> cases h
  · rename_i hdigits
    rw [if_neg hdigits]
    generalize text.dropWhile Char.isDigit = after at h
    split at h
    · exact readExponent_append hrest h
    · exact readExponent_append hrest h
    · rename_i hlower hupper
      split
      · rename_i heq
        obtain ⟨tail, htail⟩ := hrest.starts (by simp) heq
        exact absurd htail (hlower tail)
      · rename_i heq
        obtain ⟨tail, htail⟩ := hrest.starts (by simp) heq
        exact absurd htail (hupper tail)
      · exact finishDecimal_append h

theorem readAfterWhole_append (hrest : Delimited rest) {negative : Bool} {digits : List Char}
    (h : readAfterWhole negative digits text = .ok (number, left)) :
    readAfterWhole negative digits (text ++ rest) = .ok (number, left ++ rest) := by
  unfold readAfterWhole at h ⊢
  simp only at h ⊢
  split at h
  · exact readFraction_append hrest h
  · exact readExponent_append hrest h
  · exact readExponent_append hrest h
  · rename_i hpoint hlower hupper
    split
    · rename_i heq
      obtain ⟨tail, htail⟩ := hrest.starts (by simp) heq
      exact absurd htail (hpoint tail)
    · rename_i heq
      obtain ⟨tail, htail⟩ := hrest.starts (by simp) heq
      exact absurd htail (hlower tail)
    · rename_i heq
      obtain ⟨tail, htail⟩ := hrest.starts (by simp) heq
      exact absurd htail (hupper tail)
    · split at h
      · rename_i hdropped
        rw [if_pos hdropped]
        cases h
        rfl
      · rename_i hdropped
        rw [if_neg hdropped]
        exact finishDecimal_append h

/-- No digit follows the first zero in the longer text either. -/
theorem head_digit_append (hrest : Delimited rest) (text : List Char) :
    (text ++ rest).head?.any Char.isDigit = text.head?.any Char.isDigit := by
  cases text with
  | nil =>
    cases rest with
    | nil => rfl
    | cons c rest => simp [(hrest.head_ne rfl).1]
  | cons c text => rfl

theorem readNumber_append (hrest : Delimited rest) {negative : Bool}
    (h : readNumber negative text = .ok (number, left)) :
    readNumber negative (text ++ rest) = .ok (number, left ++ rest) := by
  unfold readNumber at h
  split at h
  · cases h
  · rw [List.cons_append, readNumber, head_digit_append hrest]
    split at h
    · cases h
    · rename_i hzero
      rw [if_neg hzero]
      exact readAfterWhole_append hrest h
  · rename_i first tail hzero
    split at h
    · rename_i hdigit
      rw [List.cons_append]
      unfold readNumber
      split
      · rename_i heq
        cases heq
      · rename_i heq
        exact absurd (List.cons.inj heq).1 hzero
      · rename_i heq
        obtain ⟨rfl, rfl⟩ := List.cons.inj heq
        rw [if_pos hdigit, ← List.cons_append, hrest.takeWhile_digits, hrest.dropWhile_digits]
        exact readAfterWhole_append hrest h
    · cases h

end Reading

/-! ## Numerals -/

/-- One digit or more. -/
def Digits (text : List Char) : Prop :=
  text ≠ [] ∧ ∀ c ∈ text, c.isDigit

/-- The whole part of a numeral does not start with a zero, unless it is one. -/
inductive Whole : List Char → Prop
  | zero : Whole ['0']
  | digits {first : Char} {more : List Char} (hzero : first ≠ '0') (h : Digits (first :: more)) :
    Whole (first :: more)

inductive Fraction : List Char → Prop
  | none : Fraction []
  | digits {text : List Char} (h : Digits text) : Fraction ('.' :: text)

inductive Exponent : List Char → Prop
  | none : Exponent []
  | digits {letter : Char} {sign text : List Char} (hletter : letter = 'e' ∨ letter = 'E')
    (hsign : sign ∈ [[], ['+'], ['-']]) (h : Digits text) : Exponent (letter :: (sign ++ text))

/-- A numeral without a sign. -/
inductive Unsigned : List Char → Prop
  | mk {whole fraction exponent : List Char} (hwhole : Whole whole) (hfraction : Fraction fraction)
    (hexponent : Exponent exponent) : Unsigned (whole ++ fraction ++ exponent)

/-- The numerals of JSON. -/
inductive Numeral : List Char → Prop
  | positive {text : List Char} (h : Unsigned text) : Numeral text
  | negative {text : List Char} (h : Unsigned text) : Numeral ('-' :: text)

/-- The numeral stands for this number. On its own it is read as the number, so it is in range. -/
inductive Denotes : Number → List Char → Prop
  | positive {number : Number} {text : List Char} (h : Unsigned text)
    (hread : readNumber false text = .ok (number, [])) : Denotes number text
  | negative {number : Number} {text : List Char} (h : Unsigned text)
    (hread : readNumber true text = .ok (number, [])) : Denotes number ('-' :: text)

theorem Denotes.numeral {number : Number} {text : List Char} (h : Denotes number text) :
    Numeral text := by
  cases h with
  | positive h _ => exact .positive h
  | negative h _ => exact .negative h

/-! ## Skipping -/

section Skipping

variable {rest : List Char}

theorem Digits.head_any {text : List Char} (h : Digits text) (rest : List Char) :
    (text ++ rest).head?.any Char.isDigit = true := by
  obtain ⟨hne, hdigits⟩ := h
  cases text with
  | nil => exact absurd rfl hne
  | cons c text => simp [hdigits c List.mem_cons_self]

/-- Digits are passed over, up to where they end. -/
theorem Digits.dropWhile {text : List Char} (h : Digits text)
    (hrest : rest.head?.any Char.isDigit = false) :
    (text ++ rest).dropWhile Char.isDigit = rest := by
  rw [List.dropWhile_append_of_pos h.2]
  cases rest with
  | nil => rfl
  | cons c rest =>
    have hc : c.isDigit = false := hrest
    simp [hc]

theorem head_any_of_delimited (h : Delimited rest) : rest.head?.any Char.isDigit = false :=
  head_digit_append h []

theorem skipExponentDigits_digits {text : List Char} (h : Digits text) (hrest : Delimited rest) :
    skipExponentDigits (text ++ rest) = .ok rest := by
  rw [skipExponentDigits, if_pos (h.head_any rest), h.dropWhile (head_any_of_delimited hrest)]

/-- Digits start with neither of the signs. -/
theorem Digits.cons {text : List Char} (h : Digits text) :
    ∃ c more, text = c :: more ∧ c.isDigit ∧ c ≠ '+' ∧ c ≠ '-' := by
  obtain ⟨hne, hdigits⟩ := h
  obtain ⟨c, more, rfl⟩ := List.exists_cons_of_ne_nil hne
  have hc := hdigits c List.mem_cons_self
  refine ⟨c, more, rfl, hc, ?_, ?_⟩ <;>
  · rintro rfl
    exact absurd hc (by decide)

theorem skipExponent_digits {letter : Char} {sign text : List Char}
    (hletter : letter = 'e' ∨ letter = 'E') (hsign : sign ∈ [[], ['+'], ['-']]) (h : Digits text)
    (hrest : Delimited rest) : skipExponent (letter :: (sign ++ text) ++ rest) = .ok rest := by
  have hdigits := skipExponentDigits_digits h hrest
  simp only [List.mem_cons, List.not_mem_nil, or_false] at hsign
  rcases hsign with rfl | rfl | rfl
  · obtain ⟨c, more, rfl, -, hplus, hminus⟩ := h.cons
    rw [List.cons_append] at hdigits
    rcases hletter with rfl | rfl <;> simp [skipExponent, hplus, hminus, hdigits]
  · rcases hletter with rfl | rfl <;> exact hdigits
  · rcases hletter with rfl | rfl <;> exact hdigits

theorem skipExponent_exponent {exponent : List Char} (h : Exponent exponent)
    (hrest : Delimited rest) : skipExponent (exponent ++ rest) = .ok rest := by
  cases h with
  | none =>
    unfold skipExponent
    split
    · rename_i heq
      obtain ⟨tail, htail⟩ := hrest.starts (by simp) heq
      cases htail
    · rename_i heq
      obtain ⟨tail, htail⟩ := hrest.starts (by simp) heq
      cases htail
    · rfl
  | digits hletter hsign h => exact skipExponent_digits hletter hsign h hrest

/-- Where the exponent starts, no digits go on and no point follows. -/
theorem Exponent.head {exponent : List Char} (h : Exponent exponent) (hrest : Delimited rest) :
    (exponent ++ rest).head?.any Char.isDigit = false ∧
      ∀ more, exponent ++ rest ≠ '.' :: more := by
  cases h with
  | none =>
    refine ⟨head_any_of_delimited hrest, fun more heq => ?_⟩
    obtain ⟨tail, htail⟩ := hrest.starts (by simp) heq
    cases htail
  | digits hletter hsign h =>
    rcases hletter with rfl | rfl <;> exact ⟨rfl, fun more heq => nomatch (List.cons.inj heq).1⟩

theorem skipAfterWhole_numeral {fraction exponent : List Char} (hfraction : Fraction fraction)
    (hexponent : Exponent exponent) (hrest : Delimited rest) :
    skipAfterWhole (fraction ++ (exponent ++ rest)) = .ok rest := by
  obtain ⟨hdigit, hpoint⟩ := hexponent.head hrest
  cases hfraction with
  | none =>
    unfold skipAfterWhole
    split
    · rename_i more heq
      exact absurd heq (hpoint more)
    · exact skipExponent_exponent hexponent hrest
  | digits h =>
    rw [List.cons_append, skipAfterWhole, if_pos (h.head_any _), h.dropWhile hdigit]
    exact skipExponent_exponent hexponent hrest

/-- After the whole part, too, no digits go on. -/
theorem Fraction.head {fraction exponent : List Char} (hfraction : Fraction fraction)
    (hexponent : Exponent exponent) (hrest : Delimited rest) :
    (fraction ++ (exponent ++ rest)).head?.any Char.isDigit = false := by
  cases hfraction with
  | none => exact (hexponent.head hrest).1
  | digits h => rfl

theorem skipNumber_unsigned {text : List Char} (h : Unsigned text) (hrest : Delimited rest) :
    skipNumber (text ++ rest) = .ok rest := by
  obtain ⟨hwhole, hfraction, hexponent⟩ := h
  have hafter := skipAfterWhole_numeral hfraction hexponent hrest
  have hhead := hfraction.head hexponent hrest
  rw [List.append_assoc, List.append_assoc]
  cases hwhole with
  | zero =>
    rw [List.cons_append, List.nil_append, skipNumber, hhead]
    exact hafter
  | digits hzero h =>
    unfold skipNumber
    split
    · rename_i heq
      exact absurd (List.cons.inj heq).1 hzero
    · rw [if_pos (h.head_any _), h.dropWhile hhead]
      exact hafter

end Skipping

/-! ## Numbers as values -/

section Scalars

variable {text rest : List Char} {number : Number}

theorem Unsigned.cons (h : Unsigned text) : ∃ c more, text = c :: more ∧ c.isDigit := by
  obtain ⟨hwhole, -, -⟩ := h
  cases hwhole with
  | zero => exact ⟨'0', _, rfl, rfl⟩
  | digits hzero h => exact ⟨_, _, rfl, h.2 _ List.mem_cons_self⟩

theorem ne_of_isDigit {c other : Char} (h : c.isDigit) (hother : other.isDigit = false) :
    c ≠ other := by
  rintro rfl
  rw [hother] at h
  cases h

theorem readScalar?_digit {c : Char} (h : c.isDigit) (text : List Char) :
    readScalar? (c :: text) =
      some ((readNumber false (c :: text)).map fun (value, rest) => (.num value, rest)) := by
  rw [readScalar?, if_pos h] <;> exact ne_of_isDigit h (by decide)

theorem skipScalar?_digit {c : Char} (h : c.isDigit) (text : List Char) :
    skipScalar? (c :: text) = some (skipNumber (c :: text)) := by
  rw [skipScalar?, if_pos h] <;> exact ne_of_isDigit h (by decide)

/-- A number is read in front of anything that ends it. -/
theorem readScalar?_denotes (h : Denotes number text) (hrest : Delimited rest) :
    readScalar? (text ++ rest) = some (.ok (.num number, rest)) := by
  cases h with
  | positive h hread =>
    have hnumber := readNumber_append hrest hread
    obtain ⟨c, more, rfl, hdigit⟩ := h.cons
    rw [List.cons_append, readScalar?_digit hdigit, ← List.cons_append, hnumber]
    rfl
  | negative h hread =>
    rw [List.cons_append, readScalar?, readNumber_append hrest hread]
    rfl

theorem skipScalar?_numeral (h : Numeral text) (hrest : Delimited rest) :
    skipScalar? (text ++ rest) = some (.ok rest) := by
  cases h with
  | positive h =>
    have hskip := skipNumber_unsigned h hrest
    obtain ⟨c, more, rfl, hdigit⟩ := h.cons
    rw [List.cons_append, skipScalar?_digit hdigit, ← List.cons_append, hskip]
  | negative h => rw [List.cons_append, skipScalar?, skipNumber_unsigned h hrest]

/-- A numeral starts with no blank, no bracket and no quote. -/
theorem Numeral.first (h : Numeral text) :
    ∃ c more, text = c :: more ∧ isBlank c = false ∧ c ∉ ['[', ']', '\x7b', '\x7d', '"'] := by
  obtain ⟨c, more, rfl, hfirst⟩ : ∃ c more, text = c :: more ∧ (c.isDigit ∨ c = '-') := by
    cases h with
    | positive h =>
      obtain ⟨c, more, rfl, hdigit⟩ := h.cons
      exact ⟨c, more, rfl, .inl hdigit⟩
    | negative h => exact ⟨'-', _, rfl, .inr rfl⟩
  have hother : ∀ other ∈ [' ', '\n', '\t', '\r', '[', ']', '\x7b', '\x7d', '"'],
      other.isDigit = false ∧ '-' ≠ other := by simp
  have hne : ∀ other ∈ [' ', '\n', '\t', '\r', '[', ']', '\x7b', '\x7d', '"'], c ≠ other := by
    intro other ho
    rcases hfirst with hdigit | rfl
    · exact ne_of_isDigit hdigit (hother other ho).1
    · exact (hother other ho).2
  simp only [List.forall_mem_cons] at hne
  exact ⟨c, more, rfl, by simp [isBlank, hne], by simp [hne]⟩

/-- The characters of a numeral. -/
theorem Numeral.chars (h : Numeral text) :
    ∀ c ∈ text, c.isDigit ∨ c ∈ ['+', '-', '.', 'e', 'E'] := by
  have hunsigned {text : List Char} (h : Unsigned text) :
      ∀ c ∈ text, c.isDigit ∨ c ∈ ['+', '-', '.', 'e', 'E'] := by
    obtain ⟨hwhole, hfraction, hexponent⟩ := h
    simp only [List.forall_mem_append]
    refine ⟨⟨?_, ?_⟩, ?_⟩
    · cases hwhole with
      | zero => simp
      | digits _ h => exact fun c hc => .inl (h.2 c hc)
    · cases hfraction with
      | none => simp
      | digits h => exact List.forall_mem_cons.mpr ⟨by simp, fun c hc => .inl (h.2 c hc)⟩
    · cases hexponent with
      | none => simp
      | digits hletter hsign h =>
        rw [List.forall_mem_cons, List.forall_mem_append]
        refine ⟨?_, ?_, fun c hc => .inl (h.2 c hc)⟩
        · rcases hletter with rfl | rfl <;> simp
        · intro c hc
          simp only [List.mem_cons, List.not_mem_nil, or_false] at hsign
          rcases hsign with rfl | rfl | rfl <;> simp_all
  cases h with
  | positive h => exact hunsigned h
  | negative h => exact List.forall_mem_cons.mpr ⟨by simp, hunsigned h⟩

end Scalars

end ShaderScript.Json
