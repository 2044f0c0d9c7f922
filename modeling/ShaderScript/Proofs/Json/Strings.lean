import Mathlib.Tactic.SplitIfs
import ShaderScript.Json.Skip
import ShaderScript.Json.Writer

/-!
# Strings

A string can be written in many ways: most characters can stand for themselves or be escaped, and
escapes come in several forms. `Spelled` lists the ways, and however a string is written, reading it
gives its characters, up to the closing quote and no further. The writer chooses one of these ways.
A string that is only skipped may also write half of a pair.
-/

namespace ShaderScript.Json

/-! ## Written strings -/

/-- A unit of its own, and no half of a pair. -/
def isSurrogate (unit : Nat) : Bool :=
  isHighSurrogate unit || isLowSurrogate unit

/-- The four characters write this unit. -/
def WritesUnit (digits : List Char) (unit : Nat) : Prop :=
  digits.length = 4 ∧ hexUnit? digits = some unit

/-- The ways to write characters between the quotes of a string. -/
inductive Spelled : (content text : List Char) → Prop
  | nil : Spelled [] []
  | plain {c : Char} {content text : List Char} (hquote : c ≠ '"') (hslash : c ≠ '\\')
    (hcontrol : ¬ c < ' ') (h : Spelled content text) : Spelled (c :: content) (c :: text)
  | letter {letter c : Char} {content text : List Char} (hescape : escaped? letter = some c)
    (h : Spelled content text) : Spelled (c :: content) ('\\' :: letter :: text)
  | unit {digits : List Char} {unit : Nat} {content text : List Char}
    (hunit : WritesUnit digits unit) (hsingle : isSurrogate unit = false)
    (h : Spelled content text) :
    Spelled (Char.ofNat unit :: content) ('\\' :: 'u' :: (digits ++ text))
  /-- Two units that write one character. -/
  | pair {digits others : List Char} {high low : Nat} {content text : List Char}
    (hfirst : WritesUnit digits high) (hsecond : WritesUnit others low)
    (hhigh : isHighSurrogate high) (hlow : isLowSurrogate low) (h : Spelled content text) :
    Spelled (Char.ofNat ((high - 0xD800) * 0x400 + (low - 0xDC00) + 0x10000) :: content)
      ('\\' :: 'u' :: (digits ++ '\\' :: 'u' :: (others ++ text)))

/-- What may stand between the quotes of a string that nobody reads. -/
inductive StringText : List Char → Prop
  | nil : StringText []
  | plain {c : Char} {text : List Char} (hquote : c ≠ '"') (hslash : c ≠ '\\')
    (hcontrol : ¬ c < ' ') (h : StringText text) : StringText (c :: text)
  | letter {letter c : Char} {text : List Char} (hescape : escaped? letter = some c)
    (h : StringText text) : StringText ('\\' :: letter :: text)
  | unit {digits : List Char} {unit : Nat} {text : List Char} (hunit : WritesUnit digits unit)
    (h : StringText text) : StringText ('\\' :: 'u' :: (digits ++ text))

theorem Spelled.stringText {content text : List Char} (h : Spelled content text) :
    StringText text := by
  induction h with
  | nil => exact .nil
  | plain hquote hslash hcontrol _ ih => exact .plain hquote hslash hcontrol ih
  | letter hescape _ ih => exact .letter hescape ih
  | unit hunit _ _ ih => exact .unit hunit ih
  | pair hfirst hsecond _ _ _ ih => exact .unit hfirst (.unit hsecond ih)

/-! ## Escapes -/

theorem escaped?_u : escaped? 'u' = none :=
  rfl

theorem WritesUnit.hexUnit?_append {digits : List Char} {unit : Nat} (h : WritesUnit digits unit)
    (rest : List Char) : hexUnit? (digits ++ rest) = some unit := by
  obtain ⟨hlength, hunit⟩ := h
  match digits, hlength with
  | [a, b, c, d], _ => exact hunit

theorem readHexUnit_writes {digits : List Char} {unit : Nat} (h : WritesUnit digits unit)
    (rest : List Char) : readHexUnit (digits ++ rest) = .ok unit := by
  rw [readHexUnit, h.hexUnit?_append]

theorem readEscape_letter {letter c : Char} (h : escaped? letter = some c) (rest : List Char) :
    readEscape (letter :: rest) = .ok (c, 1) := by
  unfold readEscape
  split
  · rename_i heq
    cases heq
  · rename_i heq
    obtain ⟨rfl, rfl⟩ := List.cons.inj heq
    rw [escaped?_u] at h
    cases h
  · rename_i heq
    obtain ⟨rfl, rfl⟩ := List.cons.inj heq
    rw [h]

theorem readUnicodeEscape_unit {digits : List Char} {unit : Nat} (h : WritesUnit digits unit)
    (hsingle : isSurrogate unit = false) (rest : List Char) :
    readUnicodeEscape (digits ++ rest) = .ok (Char.ofNat unit, 4) := by
  obtain ⟨hhigh, hlow⟩ := Bool.or_eq_false_iff.mp hsingle
  simp only [readUnicodeEscape, readHexUnit_writes h, bind, Except.bind, hhigh, hlow,
    Bool.false_eq_true, if_false]

theorem readLowSurrogate_writes {digits : List Char} {low : Nat} (h : WritesUnit digits low)
    (hlow : isLowSurrogate low) (rest : List Char) :
    readLowSurrogate ('\\' :: 'u' :: (digits ++ rest)) = .ok low := by
  simp only [readLowSurrogate, readHexUnit_writes h, bind, Except.bind, hlow, if_true]

theorem readUnicodeEscape_pair {digits others : List Char} {high low : Nat}
    (hfirst : WritesUnit digits high) (hsecond : WritesUnit others low)
    (hhigh : isHighSurrogate high) (hlow : isLowSurrogate low) (rest : List Char) :
    readUnicodeEscape (digits ++ '\\' :: 'u' :: (others ++ rest)) =
      .ok (Char.ofNat ((high - 0xD800) * 0x400 + (low - 0xDC00) + 0x10000), 10) := by
  have hnot : isLowSurrogate high = false := by
    simp only [isHighSurrogate, isLowSurrogate, Bool.and_eq_true, decide_eq_true_eq,
      Bool.and_eq_false_iff, decide_eq_false_iff_not] at hhigh ⊢
    omega
  have hdrop : (digits ++ '\\' :: 'u' :: (others ++ rest)).drop 4 =
      '\\' :: 'u' :: (others ++ rest) := List.drop_left' hfirst.1
  simp only [readUnicodeEscape, readHexUnit_writes hfirst, bind, Except.bind, hnot, hhigh, hdrop,
    readLowSurrogate_writes hsecond hlow, Bool.false_eq_true, if_false, if_true]

/-! ## Reading and skipping -/

/-- The characters of an escape that has been read are passed over. -/
theorem readStringFrom_taken (read escape rest : List Char) :
    readStringFrom escape.length read (escape ++ rest) = readStringFrom 0 read rest := by
  induction escape with
  | nil => rfl
  | cons c escape ih =>
    rw [List.length_cons, List.cons_append, readStringFrom, ih]

theorem readStringFrom_escape {escape rest : List Char} {c : Char}
    (h : readEscape (escape ++ rest) = .ok (c, escape.length)) (read : List Char) :
    readStringFrom 0 read ('\\' :: (escape ++ rest)) = readStringFrom 0 (c :: read) rest := by
  rw [readStringFrom, if_neg (by decide), if_pos rfl, h]
  exact readStringFrom_taken (c :: read) escape rest

theorem readStringFrom_spelled {content text : List Char} (h : Spelled content text)
    (read rest : List Char) :
    readStringFrom 0 read (text ++ '"' :: rest) =
      .ok (String.ofList (read.reverse ++ content), rest) := by
  induction h generalizing read with
  | nil => simp [readStringFrom]
  | @plain c content text hquote hslash hcontrol _ ih =>
    rw [List.cons_append, readStringFrom, if_neg hquote, if_neg hslash, if_neg hcontrol, ih]
    simp
  | @letter letter c content text hescape _ ih =>
    have hread : readEscape ([letter] ++ (text ++ '"' :: rest)) = .ok (c, [letter].length) :=
      readEscape_letter hescape (text ++ '"' :: rest)
    have hstep := readStringFrom_escape hread read
    simp only [List.cons_append, List.nil_append] at hstep ⊢
    rw [hstep, ih]
    simp
  | @unit digits unit content text hunit hsingle _ ih =>
    have hread : readEscape (('u' :: digits) ++ (text ++ '"' :: rest)) =
        .ok (Char.ofNat unit, ('u' :: digits).length) := by
      rw [List.cons_append, readEscape, readUnicodeEscape_unit hunit hsingle, List.length_cons,
        hunit.1]
      rfl
    have hstep := readStringFrom_escape hread read
    simp only [List.cons_append, List.append_assoc] at hstep ⊢
    rw [hstep, ih]
    simp
  | @pair digits others high low content text hfirst hsecond hhigh hlow _ ih =>
    have hpair := readUnicodeEscape_pair hfirst hsecond hhigh hlow (text ++ '"' :: rest)
    generalize Char.ofNat ((high - 0xD800) * 0x400 + (low - 0xDC00) + 0x10000) = c at hpair ⊢
    have hread : readEscape (('u' :: (digits ++ '\\' :: 'u' :: others)) ++ (text ++ '"' :: rest)) =
        .ok (c, ('u' :: (digits ++ '\\' :: 'u' :: others)).length) := by
      simp only [List.cons_append, List.append_assoc, readEscape, hpair, List.length_cons,
        List.length_append, hfirst.1, hsecond.1]
      rfl
    have hstep := readStringFrom_escape hread read
    simp only [List.cons_append, List.append_assoc] at hstep ⊢
    rw [hstep, ih]
    simp

/-- However a string is written, it is read after its opening quote. -/
theorem readString_spelled {content : String} {text : List Char}
    (h : Spelled content.toList text) (rest : List Char) :
    readString (text ++ '"' :: rest) = .ok (content, rest) := by
  rw [readString, readStringFrom_spelled h]
  simp

theorem skipEscape_letter {letter c : Char} (h : escaped? letter = some c) (rest : List Char) :
    skipEscape (letter :: rest) = .ok 1 := by
  unfold skipEscape
  split
  · rename_i heq
    cases heq
  · rename_i heq
    obtain ⟨rfl, rfl⟩ := List.cons.inj heq
    rw [escaped?_u] at h
    cases h
  · rename_i heq
    obtain ⟨rfl, rfl⟩ := List.cons.inj heq
    rw [h]
    rfl

theorem skipStringFrom_taken (escape rest : List Char) :
    skipStringFrom escape.length (escape ++ rest) = skipStringFrom 0 rest := by
  induction escape with
  | nil => rfl
  | cons c escape ih => rw [List.length_cons, List.cons_append, skipStringFrom, ih]

theorem skipStringFrom_escape {escape rest : List Char}
    (h : skipEscape (escape ++ rest) = .ok escape.length) :
    skipStringFrom 0 ('\\' :: (escape ++ rest)) = skipStringFrom 0 rest := by
  rw [skipStringFrom, if_neg (by decide), if_pos rfl, h]
  exact skipStringFrom_taken escape rest

/-- A string is skipped up to its closing quote. -/
theorem skipStringFrom_text {text : List Char} (h : StringText text) (rest : List Char) :
    skipStringFrom 0 (text ++ '"' :: rest) = .ok rest := by
  induction h with
  | nil => simp [skipStringFrom]
  | plain hquote hslash hcontrol _ ih =>
    rw [List.cons_append, skipStringFrom, if_neg hquote, if_neg hslash, if_neg hcontrol, ih]
  | @letter letter c text hescape _ ih =>
    have hskip : skipEscape ([letter] ++ (text ++ '"' :: rest)) = .ok [letter].length :=
      skipEscape_letter hescape _
    exact (skipStringFrom_escape hskip).trans ih
  | @unit digits unit text hunit _ ih =>
    have hskip : skipEscape (('u' :: digits) ++ (text ++ '"' :: rest)) =
        .ok ('u' :: digits).length := by
      rw [List.cons_append, skipEscape, readHexUnit_writes hunit, List.length_cons, hunit.1]
      rfl
    have hstep := skipStringFrom_escape hskip
    simp only [List.cons_append, List.append_assoc] at hstep ⊢
    rw [hstep, ih]

/-! ## The writer -/

theorem hexDigit?_hexDigit {digit : Nat} (h : digit < 16) :
    hexDigit? (hexDigit digit) = some digit := by
  have hall : ∀ digit < 16, hexDigit? (hexDigit digit) = some digit := by decide
  exact hall digit h

/-- The escape for a character below the blank. -/
theorem writesUnit_low {code : Nat} (h : code < 32) :
    WritesUnit ['0', '0', hexDigit (code / 16), hexDigit (code % 16)] code := by
  have hzero : hexDigit? '0' = some 0 := by decide
  have hhigh : hexDigit? (hexDigit (code / 16)) = some (code / 16) :=
    hexDigit?_hexDigit (by omega)
  have hlow : hexDigit? (hexDigit (code % 16)) = some (code % 16) := hexDigit?_hexDigit (by omega)
  refine ⟨rfl, ?_⟩
  simp only [hexUnit?, hzero, hhigh, hlow, Option.bind_eq_bind, Option.bind_some,
    Option.some.injEq]
  omega

/-- A character is written in one of the ways to write it. -/
theorem Spelled.escapeChar {content text : List Char} (c : Char) (h : Spelled content text) :
    Spelled (c :: content) (escapeChar c ++ text) := by
  unfold Json.escapeChar
  split_ifs with hquote hslash _ _ _ _ _ hlow
  iterate 7 exact .letter (by subst_vars; rfl) h
  · have hcode : c.toNat < 32 := hlow
    have hsingle : isSurrogate c.toNat = false := by
      simp only [isSurrogate, isHighSurrogate, isLowSurrogate, Bool.or_eq_false_iff,
        Bool.and_eq_false_iff, decide_eq_false_iff_not]
      omega
    have hspelled := Spelled.unit (writesUnit_low hcode) hsingle h
    rw [Char.ofNat_toNat] at hspelled
    exact hspelled
  · exact .plain hquote hslash hlow h

theorem spelled_flatMap (content : List Char) : Spelled content (content.flatMap escapeChar) := by
  induction content with
  | nil => exact .nil
  | cons c content ih => exact ih.escapeChar c

end ShaderScript.Json
