import Mathlib.Data.String.Basic
import Mathlib.Tactic.SplitIfs

/-!
# The order of texts by bytes

A text is stored as bytes, one to four for each character. Comparing two texts byte by byte gives
the same answer as comparing them character by character, and a text starts with another one as
bytes exactly if it does as characters.
-/

namespace ShaderScript

/-- The bytes that a text is stored as. -/
def utf8Bytes (text : String) : List UInt8 :=
  text.toUTF8.data.toList

theorem utf8Bytes_eq (text : String) :
    utf8Bytes text = text.toList.flatMap String.utf8EncodeChar := by
  rw [utf8Bytes, String.toUTF8_eq_toByteArray, ← String.utf8Encode_toList, List.utf8Encode,
    List.toList_data_toByteArray]

theorem utf8Bytes_inj {left right : String} : utf8Bytes left = utf8Bytes right ↔ left = right := by
  constructor
  · intro h
    exact String.toByteArray_inj.mp (ByteArray.ext (Array.toList_inj.mp h))
  · rintro rfl
    rfl

/-! ## The bytes of a character -/

/-- A number in base 64. The last `count` digits have a byte each, and what is left of the number
is in the first byte, above the mark. -/
def digitBytes (mark : Nat) : (count value : Nat) → List UInt8
  | 0, value => [.ofNat (value + mark)]
  | count + 1, value => digitBytes mark count (value / 64) ++ [.ofNat (value % 64 + 128)]

/-- The mark in the first byte of a character, and how many digits it announces. -/
def digitLayout (value : Nat) : Nat × Nat :=
  if value ≤ 127 then (0, 0)
  else if value ≤ 2047 then (192, 1)
  else if value ≤ 65535 then (224, 2)
  else (240, 3)

/-- The first byte of a character. -/
def leadByte (value : Nat) : Nat :=
  value / 64 ^ (digitLayout value).2 + (digitLayout value).1

section Digits

variable {low high mark count : Nat}

theorem digitBytes_eq_cons (mark count value : Nat) :
    ∃ rest, digitBytes mark count value = .ofNat (value / 64 ^ count + mark) :: rest := by
  induction count generalizing value with
  | zero => exact ⟨[], by simp [digitBytes]⟩
  | succ count ih =>
    obtain ⟨rest, hrest⟩ := ih (value / 64)
    refine ⟨rest ++ [.ofNat (value % 64 + 128)], ?_⟩
    rw [digitBytes, hrest, Nat.div_div_eq_div_mul, Nat.pow_succ, Nat.mul_comm, List.cons_append]

theorem ofNat_cons_lt (h : low < high) (hhigh : high < 256) (left right : List UInt8) :
    UInt8.ofNat low :: left < UInt8.ofNat high :: right := by
  refine List.cons_lt_cons_iff.mpr (.inl ?_)
  rw [UInt8.lt_iff_toNat_lt, UInt8.toNat_ofNat_of_lt' (Nat.lt_trans h hhigh),
    UInt8.toNat_ofNat_of_lt' hhigh]
  exact h

/-- The first digit that differs decides, whatever follows. -/
theorem digitBytes_lt (h : low < high) (hhigh : high / 64 ^ count + mark < 256)
    (left right : List UInt8) :
    digitBytes mark count low ++ left < digitBytes mark count high ++ right := by
  induction count generalizing low high left right with
  | zero =>
    rw [Nat.pow_zero, Nat.div_one] at hhigh
    exact ofNat_cons_lt (by omega) hhigh left right
  | succ count ih =>
    rw [digitBytes, digitBytes, List.append_assoc, List.append_assoc]
    obtain hfront | ⟨hfront, hlast⟩ :
        low / 64 < high / 64 ∨ low / 64 = high / 64 ∧ low % 64 < high % 64 := by omega
    · refine ih hfront ?_ _ _
      rwa [Nat.div_div_eq_div_mul, Nat.mul_comm, ← Nat.pow_succ]
    · rw [hfront]
      exact List.append_left_lt (ofNat_cons_lt (by omega) (by omega) left right)

/-- Of two numbers, the larger one has at least as many bytes, and if it has more then its first
byte is larger. -/
theorem digitLayout_or_leadByte (h : low < high) (hhigh : high < 1114112) :
    leadByte high < 256 ∧ (digitLayout low = digitLayout high ∨ leadByte low < leadByte high) := by
  unfold leadByte digitLayout
  split_ifs <;> simp only [Prod.mk.injEq, true_or, and_true] <;> omega

end Digits

theorem toNat_lt_of_char (c : Char) : c.toNat < 1114112 := by
  obtain h | h := c.valid
  · exact Nat.lt_trans h (by decide)
  · exact h.2

theorem utf8EncodeChar_eq (c : Char) :
    String.utf8EncodeChar c =
      digitBytes (digitLayout c.toNat).1 (digitLayout c.toNat).2 c.toNat := by
  have hmax : c.val.toNat < 1114112 := toNat_lt_of_char c
  simp only [String.utf8EncodeChar, digitLayout, Char.toNat]
  split_ifs <;>
    simp (disch := omega) only [digitBytes, List.cons_append, List.nil_append, Nat.add_zero,
      Nat.div_div_eq_div_mul, Nat.reduceMul, Nat.mod_eq_of_lt]

theorem utf8EncodeChar_eq_cons (c : Char) :
    ∃ rest, String.utf8EncodeChar c = .ofNat (leadByte c.toNat) :: rest := by
  rw [utf8EncodeChar_eq]
  exact digitBytes_eq_cons _ _ _

/-- The first byte that differs decides, whatever follows. -/
theorem utf8EncodeChar_lt {c d : Char} (h : c < d) (left right : List UInt8) :
    String.utf8EncodeChar c ++ left < String.utf8EncodeChar d ++ right := by
  have hlt : c.toNat < d.toNat := h
  obtain ⟨hlead, hlayout | hlower⟩ := digitLayout_or_leadByte hlt (toNat_lt_of_char d)
  · rw [utf8EncodeChar_eq, utf8EncodeChar_eq, hlayout]
    exact digitBytes_lt hlt hlead left right
  · obtain ⟨first, hfirst⟩ := utf8EncodeChar_eq_cons c
    obtain ⟨second, hsecond⟩ := utf8EncodeChar_eq_cons d
    rw [hfirst, hsecond]
    exact ofNat_cons_lt hlower hlead _ _

/-- No character's bytes begin the bytes of another one. -/
theorem eq_of_utf8EncodeChar_append_eq {c d : Char} {left right : List UInt8}
    (h : String.utf8EncodeChar c ++ left = String.utf8EncodeChar d ++ right) : c = d := by
  rcases lt_trichotomy c d with hlt | heq | hgt
  · have hbytes := utf8EncodeChar_lt hlt left right
    rw [h] at hbytes
    exact absurd hbytes (List.lt_irrefl _)
  · exact heq
  · have hbytes := utf8EncodeChar_lt hgt right left
    rw [h] at hbytes
    exact absurd hbytes (List.lt_irrefl _)

/-! ## The bytes of a text -/

theorem utf8Bytes_lt {left right : String} (h : left < right) :
    utf8Bytes left < utf8Bytes right := by
  rw [utf8Bytes_eq, utf8Bytes_eq]
  have hlex : List.Lex (· < ·) left.toList right.toList := String.lt_iff_toList_lt.mp h
  generalize left.toList = low, right.toList = high at hlex
  induction hlex with
  | @nil c _ =>
    obtain ⟨rest, hbytes⟩ := utf8EncodeChar_eq_cons c
    rw [List.flatMap_nil, List.flatMap_cons, hbytes]
    exact List.nil_lt_cons _ _
  | rel hlt => exact utf8EncodeChar_lt hlt _ _
  | cons _ ih => exact List.append_left_lt ih

/-- Texts are ordered by their bytes as they are by their characters. -/
theorem utf8Bytes_lt_iff {left right : String} :
    utf8Bytes left < utf8Bytes right ↔ left < right := by
  refine ⟨fun h => ?_, utf8Bytes_lt⟩
  rcases lt_trichotomy left right with hlt | rfl | hgt
  · exact hlt
  · exact absurd h (List.lt_irrefl _)
  · exact absurd (List.lt_trans h (utf8Bytes_lt hgt)) (List.lt_irrefl _)

theorem flatMap_utf8EncodeChar_prefix_iff (start chars : List Char) :
    start.flatMap String.utf8EncodeChar <+: chars.flatMap String.utf8EncodeChar ↔
      start <+: chars := by
  induction start generalizing chars with
  | nil => simp
  | cons c start ih =>
    cases chars with
    | nil => simp [String.utf8EncodeChar_ne_nil]
    | cons d chars =>
      rw [List.flatMap_cons, List.flatMap_cons, List.cons_prefix_cons, ← ih]
      constructor
      · rintro ⟨rest, hrest⟩
        obtain rfl := eq_of_utf8EncodeChar_append_eq ((List.append_assoc ..).symm.trans hrest)
        exact ⟨rfl, (List.prefix_append_right_inj _).mp ⟨rest, hrest⟩⟩
      · rintro ⟨rfl, hrest⟩
        exact (List.prefix_append_right_inj _).mpr hrest

/-- A text starts with another one as bytes exactly if it does as characters. -/
theorem utf8Bytes_prefix_iff (start text : String) :
    utf8Bytes start <+: utf8Bytes text ↔ start.toList <+: text.toList := by
  rw [utf8Bytes_eq, utf8Bytes_eq]
  exact flatMap_utf8EncodeChar_prefix_iff _ _

end ShaderScript
