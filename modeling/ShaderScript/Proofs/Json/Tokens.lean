import Mathlib.Data.List.TakeWhile
import ShaderScript.Proofs.Json.Loops

/-!
# What is accepted as a token

A reader that succeeds has taken a token off the front of the text: the text is the token and what
the reader left. So the ways to write a string or a number that the other modules go by are all the
ways that there are.
-/

namespace ShaderScript.Json

/-! ## Blanks and punctuation -/

theorem exists_gap (text : List Char) : ∃ gap : Gap, text = gap.chars ++ skipBlanks text :=
  ⟨⟨text.takeWhile isBlank, fun _ hc => List.mem_takeWhile_imp hc⟩,
    List.takeWhile_append_dropWhile.symm⟩

theorem readColon_accepts {text rest : List Char} (h : readColon text = .ok rest) :
    ∃ gap : Gap, text = gap.chars ++ ':' :: rest := by
  obtain ⟨gap, hgap⟩ := exists_gap text
  unfold readColon at h
  split at h
  · rename_i heq
    cases h
    exact ⟨gap, by rw [← heq]; exact hgap⟩
  · cases h
  · cases h

theorem readWord_accepts {word text rest : List Char} (h : readWord word text = .ok rest) :
    text = word ++ rest := by
  induction word generalizing text with
  | nil => exact Except.ok.inj h
  | cons letter word ih =>
    cases text with
    | nil => cases h
    | cons c text =>
      rw [readWord] at h
      split at h
      · rename_i heq
        rw [heq, List.cons_append, ih h]
      · cases h

/-! ## Strings -/

theorem readHexUnit_accepts {text : List Char} {unit : Nat} (h : readHexUnit text = .ok unit) :
    WritesUnit (text.take 4) unit := by
  have hunit : hexUnit? text = some unit := by
    unfold readHexUnit at h
    split at h
    · rename_i heq
      rw [heq, Except.ok.inj h]
    · split at h <;> cases h
  match text, hunit with
  | _ :: _ :: _ :: _ :: _, hunit => exact ⟨rfl, hunit⟩

theorem readLowSurrogate_accepts {text : List Char} {low : Nat}
    (h : readLowSurrogate text = .ok low) :
    ∃ digits, text = '\\' :: 'u' :: digits ∧ WritesUnit (digits.take 4) low ∧
      isLowSurrogate low := by
  unfold readLowSurrogate at h
  split at h
  · rename_i digits
    obtain ⟨unit, hunit, hlow⟩ := bind_eq_ok.mp h
    split at hlow
    · rename_i hsurrogate
      cases hlow
      exact ⟨digits, rfl, readHexUnit_accepts hunit, hsurrogate⟩
    · cases hlow
  · split at h <;> cases h
  · cases h
  · cases h

section Escapes

variable {text more content : List Char} {c : Char} {taken : Nat}

theorem readUnicodeEscape_accepts (h : readUnicodeEscape text = .ok (c, taken))
    (hmore : Spelled content more) :
    Spelled (c :: content) ('\\' :: 'u' :: (text.take taken ++ more)) := by
  obtain ⟨unit, hunit, h⟩ := bind_eq_ok.mp h
  have hwrites := readHexUnit_accepts hunit
  split at h
  · cases h
  · rename_i hlow
    split at h
    · rename_i hhigh
      obtain ⟨low, hread, h⟩ := bind_eq_ok.mp h
      obtain ⟨digits, hdigits, hsecond, hsurrogate⟩ := readLowSurrogate_accepts hread
      obtain ⟨rfl, rfl⟩ := Prod.mk.inj (Except.ok.inj h)
      have htake : text.take 10 = text.take 4 ++ '\\' :: 'u' :: digits.take 4 := by
        have hadd : text.take (4 + 6) = text.take 4 ++ (text.drop 4).take 6 := List.take_add
        rw [hdigits] at hadd
        exact hadd
      rw [htake, List.append_assoc]
      exact .pair hwrites hsecond hhigh hsurrogate hmore
    · rename_i hhigh
      cases h
      exact .unit hwrites (by simp [isSurrogate, hlow, hhigh]) hmore

theorem readEscape_accepts (h : readEscape text = .ok (c, taken)) (hmore : Spelled content more) :
    Spelled (c :: content) ('\\' :: (text.take taken ++ more)) := by
  unfold readEscape at h
  split at h
  · cases h
  · obtain ⟨⟨read, length⟩, hread, h⟩ := bind_eq_ok.mp h
    cases h
    exact readUnicodeEscape_accepts hread hmore
  · split at h
    · rename_i hescape
      cases h
      exact .letter hescape hmore
    · cases h

theorem skipEscape_accepts (h : skipEscape text = .ok taken) (hmore : StringText more) :
    StringText ('\\' :: (text.take taken ++ more)) := by
  unfold skipEscape at h
  split at h
  · cases h
  · obtain ⟨unit, hunit, h⟩ := bind_eq_ok.mp h
    cases h
    exact .unit (readHexUnit_accepts hunit) hmore
  · split at h
    · rename_i hescape
      obtain ⟨c, hc⟩ := Option.isSome_iff_exists.mp hescape
      cases h
      exact .letter hc hmore
    · cases h

end Escapes

theorem readStringFrom_drop (taken : Nat) (read text : List Char) :
    readStringFrom taken read text = readStringFrom 0 read (text.drop taken) := by
  induction taken generalizing text with
  | zero => rfl
  | succ taken ih =>
    cases text with
    | nil => rfl
    | cons c text => rw [readStringFrom, ih, List.drop_succ_cons]

theorem readStringFrom_accepts {read text rest : List Char} {value : String}
    (h : readStringFrom 0 read text = .ok (value, rest)) :
    ∃ content body, text = body ++ '"' :: rest ∧ Spelled content body ∧
      value = String.ofList (read.reverse ++ content) := by
  -- An escape takes several characters at once, so the induction is on the length of the text.
  induction hlength : text.length using Nat.strong_induction_on generalizing text read with
  | _ length ih =>
    subst hlength
    cases text with
    | nil => cases h
    | cons c text =>
      rw [readStringFrom] at h
      split at h
      · rename_i hquote
        cases h
        exact ⟨[], [], by rw [hquote]; rfl, .nil, by rw [List.append_nil]⟩
      · rename_i hquote
        split at h
        · rename_i hslash
          split at h
          · rename_i escaped taken hescape
            rw [readStringFrom_drop] at h
            have hshorter : (text.drop taken).length < (c :: text).length := by
              rw [List.length_drop, List.length_cons]
              omega
            obtain ⟨content, body, htext, hbody, hvalue⟩ := ih _ hshorter h rfl
            refine ⟨escaped :: content, '\\' :: (text.take taken ++ body), ?_,
              readEscape_accepts hescape hbody, by simp [hvalue]⟩
            rw [hslash, List.cons_append, List.append_assoc, ← htext, List.take_append_drop]
          · cases h
        · rename_i hslash
          split at h
          · cases h
          · rename_i hcontrol
            obtain ⟨content, body, htext, hbody, hvalue⟩ := ih _ (by simp) h rfl
            exact ⟨c :: content, c :: body, by rw [htext]; rfl, .plain hquote hslash hcontrol hbody,
              by simp [hvalue]⟩

/-- What is read as a string is one of the ways to write it. -/
theorem readString_accepts {text rest : List Char} {value : String}
    (h : readString text = .ok (value, rest)) :
    ∃ body, text = body ++ '"' :: rest ∧ Spelled value.toList body := by
  obtain ⟨content, body, htext, hbody, rfl⟩ := readStringFrom_accepts h
  exact ⟨body, htext, by simpa using hbody⟩

theorem skipStringFrom_drop (taken : Nat) (text : List Char) :
    skipStringFrom taken text = skipStringFrom 0 (text.drop taken) := by
  induction taken generalizing text with
  | zero => rfl
  | succ taken ih =>
    cases text with
    | nil => rfl
    | cons c text => rw [skipStringFrom, ih, List.drop_succ_cons]

theorem skipStringFrom_accepts {text rest : List Char} (h : skipStringFrom 0 text = .ok rest) :
    ∃ body, text = body ++ '"' :: rest ∧ StringText body := by
  induction hlength : text.length using Nat.strong_induction_on generalizing text with
  | _ length ih =>
    subst hlength
    cases text with
    | nil => cases h
    | cons c text =>
      rw [skipStringFrom] at h
      split at h
      · rename_i hquote
        cases h
        exact ⟨[], by rw [hquote]; rfl, .nil⟩
      · rename_i hquote
        split at h
        · rename_i hslash
          split at h
          · rename_i taken hescape
            rw [skipStringFrom_drop] at h
            have hshorter : (text.drop taken).length < (c :: text).length := by
              rw [List.length_drop, List.length_cons]
              omega
            obtain ⟨body, htext, hbody⟩ := ih _ hshorter h rfl
            refine ⟨'\\' :: (text.take taken ++ body), ?_, skipEscape_accepts hescape hbody⟩
            rw [hslash, List.cons_append, List.append_assoc, ← htext, List.take_append_drop]
          · cases h
        · rename_i hslash
          split at h
          · cases h
          · rename_i hcontrol
            obtain ⟨body, htext, hbody⟩ := ih _ (by simp) h rfl
            exact ⟨c :: body, by rw [htext]; rfl, .plain hquote hslash hcontrol hbody⟩

/-! ## Digits -/

section Digits

variable {text rest : List Char}

theorem Digits.takeWhile (h : Digits text) (hrest : rest.head?.any Char.isDigit = false) :
    (text ++ rest).takeWhile Char.isDigit = text := by
  rw [List.takeWhile_append_of_pos h.2]
  cases rest with
  | nil => rw [List.takeWhile_nil, List.append_nil]
  | cons c rest =>
    have hc : c.isDigit = false := hrest
    simp [hc]

theorem head_dropWhile_digits (text : List Char) :
    (text.dropWhile Char.isDigit).head?.any Char.isDigit = false := by
  induction text with
  | nil => rfl
  | cons c text ih =>
    cases hc : c.isDigit with
    | false => simp [hc]
    | true => rw [List.dropWhile_cons_of_pos hc, ih]

/-- A text that starts with a digit is digits and something else. -/
theorem exists_digits (h : text.head?.any Char.isDigit = true) :
    ∃ digits after, text = digits ++ after ∧ Digits digits ∧
      after.head?.any Char.isDigit = false := by
  refine ⟨text.takeWhile Char.isDigit, text.dropWhile Char.isDigit,
    List.takeWhile_append_dropWhile.symm, ⟨?_, fun _ hc => List.mem_takeWhile_imp hc⟩,
    head_dropWhile_digits text⟩
  cases text with
  | nil => cases h
  | cons c text =>
    have hc : c.isDigit = true := h
    simp [hc]

end Digits

/-! ## Skipped numbers -/

section SkippedNumbers

variable {text rest : List Char}

theorem skipExponentDigits_accepts (h : skipExponentDigits text = .ok rest) :
    ∃ digits, text = digits ++ rest ∧ Digits digits := by
  unfold skipExponentDigits at h
  split at h
  · rename_i hhead
    obtain ⟨digits, after, rfl, hdigits, hafter⟩ := exists_digits hhead
    rw [hdigits.dropWhile hafter] at h
    cases h
    exact ⟨digits, rfl, hdigits⟩
  · cases h

theorem skipExponent_accepts (h : skipExponent text = .ok rest) :
    ∃ exponent, text = exponent ++ rest ∧ Exponent exponent := by
  have hsigned {letter : Char} {sign tail : List Char} (hletter : letter = 'e' ∨ letter = 'E')
      (hsign : sign ∈ [[], ['+'], ['-']]) (h : skipExponentDigits tail = .ok rest) :
      ∃ exponent, letter :: (sign ++ tail) = exponent ++ rest ∧ Exponent exponent := by
    obtain ⟨digits, rfl, hdigits⟩ := skipExponentDigits_accepts h
    exact ⟨letter :: (sign ++ digits), by simp, .digits hletter hsign hdigits⟩
  unfold skipExponent at h
  split at h
  · split at h
    · exact hsigned (.inl rfl) (by simp : ['+'] ∈ _) h
    · exact hsigned (.inl rfl) (by simp : ['-'] ∈ _) h
    · exact hsigned (.inl rfl) (by simp : [] ∈ _) h
  · split at h
    · exact hsigned (.inr rfl) (by simp : ['+'] ∈ _) h
    · exact hsigned (.inr rfl) (by simp : ['-'] ∈ _) h
    · exact hsigned (.inr rfl) (by simp : [] ∈ _) h
  · cases h
    exact ⟨[], rfl, .none⟩

theorem skipAfterWhole_accepts (h : skipAfterWhole text = .ok rest) :
    ∃ fraction exponent, text = fraction ++ (exponent ++ rest) ∧ Fraction fraction ∧
      Exponent exponent := by
  unfold skipAfterWhole at h
  split at h
  · split at h
    · rename_i hhead
      obtain ⟨digits, after, rfl, hdigits, hafter⟩ := exists_digits hhead
      rw [hdigits.dropWhile hafter] at h
      obtain ⟨exponent, rfl, hexponent⟩ := skipExponent_accepts h
      exact ⟨'.' :: digits, exponent, rfl, .digits hdigits, hexponent⟩
    · cases h
  · obtain ⟨exponent, rfl, hexponent⟩ := skipExponent_accepts h
    exact ⟨[], exponent, rfl, .none, hexponent⟩

theorem skipNumber_accepts (h : skipNumber text = .ok rest) :
    ∃ number, text = number ++ rest ∧ Unsigned number := by
  unfold skipNumber at h
  split at h
  · split at h
    · cases h
    · obtain ⟨fraction, exponent, rfl, hfraction, hexponent⟩ := skipAfterWhole_accepts h
      exact ⟨_, by simp, .mk .zero hfraction hexponent⟩
  · rename_i hzero
    split at h
    · rename_i hhead
      obtain ⟨digits, after, rfl, hdigits, hafter⟩ := exists_digits hhead
      rw [hdigits.dropWhile hafter] at h
      obtain ⟨fraction, exponent, rfl, hfraction, hexponent⟩ := skipAfterWhole_accepts h
      obtain ⟨first, more, rfl, -⟩ := hdigits.cons
      have hfirst : first ≠ '0' := fun heq => hzero _ (by rw [heq]; rfl)
      exact ⟨_, by simp, .mk (.digits hfirst hdigits) hfraction hexponent⟩
    · cases h

end SkippedNumbers

/-! ## Numbers -/

section Numbers

variable {text rest : List Char} {number : Number}

theorem finishDecimal_accepts {decimal : Decimal}
    (h : finishDecimal decimal text = .ok (number, rest)) :
    text = rest ∧ finishDecimal decimal [] = .ok (number, []) := by
  unfold finishDecimal at h ⊢
  split at h
  · rename_i hrange
    cases h
    exact ⟨rfl, if_pos hrange⟩
  · cases h

theorem readExponentDigits_accepts {mantissa : Decimal} {down : Bool}
    (h : readExponentDigits mantissa down text = .ok (number, rest)) :
    ∃ digits, text = digits ++ rest ∧ Digits digits ∧
      readExponentDigits mantissa down digits = .ok (number, []) := by
  have hhead : text.head?.any Char.isDigit = true := by
    unfold readExponentDigits at h
    split at h
    · cases h
    · split at h
      · rename_i hdigit
        exact hdigit
      · cases h
  obtain ⟨digits, after, rfl, hdigits, hafter⟩ := exists_digits hhead
  obtain ⟨first, more, rfl, hdigit, -⟩ := hdigits.cons
  have halone : ([] : List Char).head?.any Char.isDigit = false := rfl
  have htake := hdigits.takeWhile halone
  have hdrop := hdigits.dropWhile halone
  rw [List.append_nil] at htake hdrop
  rw [List.cons_append, readExponentDigits, if_pos hdigit, ← List.cons_append,
    hdigits.takeWhile hafter, hdigits.dropWhile hafter] at h
  have hboth : after = rest ∧
      readExponentDigits mantissa down (first :: more) = .ok (number, []) := by
    rw [readExponentDigits, if_pos hdigit, htake, hdrop]
    cases hexponent : exponentOf 0 (first :: more) with
    | ok exponent =>
      simp only [hexponent] at h ⊢
      exact finishDecimal_accepts h
    | error unreadDigits =>
      simp only [hexponent] at h ⊢
      split at h
      · rename_i hzero
        cases h
        exact ⟨rfl, if_pos hzero⟩
      · cases h
  obtain ⟨rfl, hread⟩ := hboth
  exact ⟨first :: more, rfl, hdigits, hread⟩

theorem readExponent_accepts {mantissa : Decimal}
    (h : readExponent mantissa text = .ok (number, rest)) :
    ∃ sign digits, text = sign ++ digits ++ rest ∧ sign ∈ [[], ['+'], ['-']] ∧ Digits digits ∧
      readExponent mantissa (sign ++ digits) = .ok (number, []) := by
  unfold readExponent at h
  split at h
  · obtain ⟨digits, rfl, hdigits, hread⟩ := readExponentDigits_accepts h
    exact ⟨['+'], digits, rfl, by simp, hdigits, hread⟩
  · obtain ⟨digits, rfl, hdigits, hread⟩ := readExponentDigits_accepts h
    exact ⟨['-'], digits, rfl, by simp, hdigits, hread⟩
  · obtain ⟨digits, rfl, hdigits, hread⟩ := readExponentDigits_accepts h
    refine ⟨[], digits, rfl, by simp, hdigits, ?_⟩
    obtain ⟨first, more, rfl, -, hplus, hminus⟩ := hdigits.cons
    simpa [readExponent, hplus, hminus] using hread

theorem readFraction_accepts {whole : Decimal}
    (h : readFraction whole text = .ok (number, rest)) :
    ∃ digits exponent, text = digits ++ (exponent ++ rest) ∧ Digits digits ∧ Exponent exponent ∧
      readFraction whole (digits ++ exponent) = .ok (number, []) := by
  have hhead : text.head?.any Char.isDigit = true := by
    cases text with
    | nil => cases h
    | cons c text =>
      cases hc : c.isDigit with
      | true => exact hc
      | false =>
        rw [readFraction, List.takeWhile_cons_of_neg (by simp [hc]),
          List.dropWhile_cons_of_neg (by simp [hc])] at h
        cases h
  obtain ⟨digits, after, rfl, hdigits, hafter⟩ := exists_digits hhead
  have hne : digits.isEmpty = false := by simpa using hdigits.1
  simp only [readFraction, hdigits.takeWhile hafter, hdigits.dropWhile hafter, hne,
    Bool.false_eq_true, if_false] at h
  split at h
  · obtain ⟨sign, more, rfl, hsign, hmore, hread⟩ := readExponent_accepts h
    refine ⟨digits, 'e' :: (sign ++ more), by simp, hdigits, .digits (.inl rfl) hsign hmore, ?_⟩
    have hletter : ('e' :: (sign ++ more)).head?.any Char.isDigit = false := rfl
    simp only [readFraction, hdigits.takeWhile hletter, hdigits.dropWhile hletter, hne]
    exact hread
  · obtain ⟨sign, more, rfl, hsign, hmore, hread⟩ := readExponent_accepts h
    refine ⟨digits, 'E' :: (sign ++ more), by simp, hdigits, .digits (.inr rfl) hsign hmore, ?_⟩
    have hletter : ('E' :: (sign ++ more)).head?.any Char.isDigit = false := rfl
    simp only [readFraction, hdigits.takeWhile hletter, hdigits.dropWhile hletter, hne]
    exact hread
  · obtain ⟨rfl, hfinish⟩ := finishDecimal_accepts h
    have hend : ([] : List Char).head?.any Char.isDigit = false := rfl
    refine ⟨digits, [], rfl, hdigits, .none, ?_⟩
    simp only [readFraction, hdigits.takeWhile hend, hdigits.dropWhile hend, hne]
    exact hfinish

theorem readAfterWhole_accepts {negative : Bool} {digits : List Char}
    (h : readAfterWhole negative digits text = .ok (number, rest)) :
    ∃ fraction exponent, text = fraction ++ (exponent ++ rest) ∧ Fraction fraction ∧
      Exponent exponent ∧
        readAfterWhole negative digits (fraction ++ exponent) = .ok (number, []) := by
  unfold readAfterWhole at h
  simp only at h
  split at h
  · obtain ⟨more, exponent, rfl, hmore, hexponent, hread⟩ := readFraction_accepts h
    exact ⟨'.' :: more, exponent, rfl, .digits hmore, hexponent, hread⟩
  · obtain ⟨sign, more, rfl, hsign, hmore, hread⟩ := readExponent_accepts h
    exact ⟨[], 'e' :: (sign ++ more), by simp, .none, .digits (.inl rfl) hsign hmore, hread⟩
  · obtain ⟨sign, more, rfl, hsign, hmore, hread⟩ := readExponent_accepts h
    exact ⟨[], 'E' :: (sign ++ more), by simp, .none, .digits (.inr rfl) hsign hmore, hread⟩
  · split at h
    · rename_i hdropped
      cases h
      exact ⟨[], [], rfl, .none, .none, if_pos hdropped⟩
    · rename_i hdropped
      obtain ⟨rfl, hfinish⟩ := finishDecimal_accepts h
      exact ⟨[], [], rfl, .none, .none, (if_neg hdropped).trans hfinish⟩

/-- What is read as a number starts with a numeral, which on its own is read as the same number. -/
theorem readNumber_accepts {negative : Bool}
    (h : readNumber negative text = .ok (number, rest)) :
    ∃ numeral, text = numeral ++ rest ∧ Unsigned numeral ∧
      readNumber negative numeral = .ok (number, []) := by
  unfold readNumber at h
  split at h
  · cases h
  · split at h
    · cases h
    · obtain ⟨fraction, exponent, rfl, hfraction, hexponent, hread⟩ := readAfterWhole_accepts h
      have hhead := hfraction.head hexponent .nil
      rw [List.append_nil] at hhead
      refine ⟨_, by simp, .mk .zero hfraction hexponent, ?_⟩
      rw [List.append_assoc, List.cons_append, List.nil_append, readNumber, hhead]
      exact hread
  · rename_i first tail hzero
    split at h
    · rename_i hdigit
      have hstart : (first :: tail).head?.any Char.isDigit = true := hdigit
      obtain ⟨digits, after, htext, hdigits, hafter⟩ := exists_digits hstart
      rw [htext, hdigits.takeWhile hafter, hdigits.dropWhile hafter] at h
      obtain ⟨fraction, exponent, rfl, hfraction, hexponent, hread⟩ := readAfterWhole_accepts h
      have hhead := hfraction.head hexponent .nil
      rw [List.append_nil] at hhead
      obtain ⟨c, more, rfl, hc, -⟩ := hdigits.cons
      obtain rfl : first = c := (List.cons.inj htext).1
      refine ⟨_, by rw [htext]; simp, .mk (.digits hzero hdigits) hfraction hexponent, ?_⟩
      have htake := hdigits.takeWhile hhead
      have hdrop := hdigits.dropWhile hhead
      rw [List.cons_append] at htake hdrop
      rw [List.append_assoc, List.cons_append, readNumber, if_pos hdigit, htake, hdrop]
      · exact hread
      · exact hzero
    · cases h

end Numbers

end ShaderScript.Json
