import ShaderScript.Json.Reader
import ShaderScript.Json.Skip

/-!
# Where a text is refused

A refusal counts the bytes that lie beyond its place. They are bytes of the text that was to be
read: a reader that succeeds leaves an end of its text to the next one, and a reader that refuses
does so at a place in its text. `Stays` says both, and it passes from the parts of a reader to the whole.
-/

namespace ShaderScript.Json

/-! ## Sizes -/

theorem foldl_utf8Size (size : Nat) (text : List Char) :
    text.foldl (fun size c => size + c.utf8Size) size = size + byteSize text := by
  induction text generalizing size with
  | nil => rfl
  | cons c text ih =>
    rw [byteSize, List.foldl_cons, List.foldl_cons, ih, ih, Nat.zero_add, Nat.add_assoc]

theorem byteSize_append (front back : List Char) :
    byteSize (front ++ back) = byteSize front + byteSize back := by
  rw [byteSize, List.foldl_append, foldl_utf8Size]
  rfl

theorem byteSize_le_of_suffix {rest text : List Char} (h : rest <:+ text) :
    byteSize rest ≤ byteSize text := by
  obtain ⟨front, rfl⟩ := h
  rw [byteSize_append]
  omega

/-- The reading of a text stays in the text: what it leaves is an end of the text, and a refusal is
reported at a place in it. -/
def Stays {α : Type} (text : List Char) (left : α → List Char) : Except Refusal α → Prop
  | .ok value => left value <:+ text
  | .error refusal => refusal.unread ≤ byteSize text

section Stays

variable {α β : Type} {text rest : List Char} {left : α → List Char}
  {result : Except Refusal α}

theorem Stays.mono (h : Stays rest left result) (hrest : rest <:+ text) :
    Stays text left result := by
  cases result with
  | ok value => exact List.IsSuffix.trans h hrest
  | error refusal => exact Nat.le_trans h (byteSize_le_of_suffix hrest)

theorem Stays.cons (h : Stays text left result) (c : Char) : Stays (c :: text) left result :=
  h.mono (List.suffix_cons c text)

theorem Stays.skipBlanks (h : Stays (skipBlanks text) left result) : Stays text left result :=
  h.mono (List.dropWhile_suffix _)

theorem Stays.bind {next : α → Except Refusal β} {final : β → List Char}
    (h : Stays text left result) (hnext : ∀ value, Stays (left value) final (next value)) :
    Stays text final (result >>= next) := by
  cases result with
  | ok value => exact (hnext value).mono h
  | error refusal => exact h

theorem Stays.map {convert : α → β} {final : β → List Char} (h : Stays text left result)
    (hleft : ∀ value, final (convert value) = left value) :
    Stays text final (result.map convert) := by
  cases result with
  | ok value =>
    change final (convert value) <:+ text
    rw [hleft]
    exact h
  | error refusal => exact h

theorem stays_refuse (fault : Fault) (hrest : rest <:+ text) :
    Stays text left (refuse fault rest) :=
  byteSize_le_of_suffix hrest

theorem stays_refuse_end (fault : Fault) : Stays text left (refuse fault []) :=
  stays_refuse fault List.nil_suffix

theorem stays_refuseNext (fault : Fault) : Stays text left (refuseNext fault text) :=
  Nat.sub_le _ _

theorem stays_reject (difference : Mismatch) (hrest : rest <:+ text) :
    Stays text left (reject difference rest) :=
  byteSize_le_of_suffix hrest

end Stays

/-! ## Words and strings -/

section Strings

variable (text : List Char)

theorem stays_readWord (word : List Char) : Stays text id (readWord word text) := by
  induction word generalizing text with
  | nil => exact List.suffix_rfl
  | cons letter word ih =>
    cases text with
    | nil => exact stays_refuse_end _
    | cons c text =>
      rw [readWord]
      split
      · exact (ih text).cons c
      · exact stays_refuseNext _

theorem stays_readColon : Stays text id (readColon text) := by
  apply Stays.skipBlanks
  rw [readColon]
  generalize skipBlanks text = found
  split
  · exact List.suffix_cons _ _
  · exact stays_refuse_end _
  · exact stays_refuseNext _

/-- The digits are not taken off the text by their reader, so that it leaves the whole text. -/
theorem stays_readHexUnit : Stays text (fun _ => text) (readHexUnit text) := by
  rw [readHexUnit]
  split
  · exact List.suffix_rfl
  · split
    · exact stays_refuse_end _
    · exact Nat.sub_le _ _

theorem stays_readLowSurrogate : Stays text (fun _ => []) (readLowSurrogate text) := by
  unfold readLowSurrogate
  split
  · rename_i digits
    refine ((stays_readHexUnit digits).cons _ |>.cons _).bind fun low => ?_
    split
    · exact List.nil_suffix
    · exact stays_refuse _ (List.drop_suffix 4 digits)
  · split
    · exact stays_refuse_end _
    · exact (stays_refuseNext _).cons _
  · exact stays_refuse_end _
  · exact stays_refuseNext _

theorem stays_readUnicodeEscape : Stays text (fun _ => []) (readUnicodeEscape text) := by
  refine (stays_readHexUnit text).bind fun unit => ?_
  split
  · exact stays_refuse _ (List.drop_suffix 4 text)
  · split
    · refine ((stays_readLowSurrogate (text.drop 4)).mono (List.drop_suffix 4 text)).bind ?_
      exact fun _ => List.suffix_rfl
    · exact List.nil_suffix

theorem stays_readEscape : Stays text (fun _ => []) (readEscape text) := by
  unfold readEscape
  split
  · exact stays_refuse_end _
  · rename_i digits
    exact ((stays_readUnicodeEscape digits).cons _).bind fun _ => List.suffix_rfl
  · split
    · exact List.nil_suffix
    · exact stays_refuseNext _

theorem stays_skipEscape : Stays text (fun _ => []) (skipEscape text) := by
  unfold skipEscape
  split
  · exact stays_refuse_end _
  · rename_i digits
    exact ((stays_readHexUnit digits).cons _).bind fun _ => List.nil_suffix
  · split
    · exact List.nil_suffix
    · exact stays_refuseNext _

theorem stays_readStringFrom (taken : Nat) (read : List Char) :
    Stays text Prod.snd (readStringFrom taken read text) := by
  fun_induction readStringFrom taken read text with
  | case1 => exact stays_refuse_end _
  | case2 taken read c text ih => exact ih.cons c
  | case3 read text => exact List.suffix_cons _ _
  | case4 read text _ escaped taken hescape ih => exact ih.cons _
  | case5 read text refusal hescape _ =>
    have hstays := (stays_readEscape text).cons '\\'
    rw [hescape] at hstays
    exact hstays
  | case6 read c text => exact stays_refuseNext _
  | case7 read c text _ _ _ ih => exact ih.cons c

theorem stays_readString : Stays text Prod.snd (readString text) :=
  stays_readStringFrom text 0 []

theorem stays_skipStringFrom (taken : Nat) : Stays text id (skipStringFrom taken text) := by
  fun_induction skipStringFrom taken text with
  | case1 => exact stays_refuse_end _
  | case2 taken c text ih => exact ih.cons c
  | case3 text => exact List.suffix_cons _ _
  | case4 text _ taken hescape ih => exact ih.cons _
  | case5 text refusal hescape _ =>
    have hstays := (stays_skipEscape text).cons '\\'
    rw [hescape] at hstays
    exact hstays
  | case6 c text => exact stays_refuse _ List.suffix_rfl
  | case7 c text _ _ _ ih => exact ih.cons c

end Strings

/-! ## Numbers -/

section Numbers

variable (text : List Char)

theorem stays_finishDecimal (decimal : Decimal) :
    Stays text Prod.snd (finishDecimal decimal text) := by
  rw [finishDecimal]
  split
  · exact List.suffix_rfl
  · exact stays_refuse _ List.suffix_rfl

/-- An exponent that is too large is found at one of its digits. -/
theorem suffix_of_exponentOf {exponent : Nat} {digits unread : List Char}
    (h : exponentOf exponent digits = .error unread) : unread <:+ digits := by
  induction digits generalizing exponent with
  | nil => cases h
  | cons digit digits ih =>
    rw [exponentOf] at h
    split at h
    · exact (ih h).trans (List.suffix_cons digit digits)
    · obtain rfl := Except.error.inj h
      exact List.suffix_cons digit digits

theorem stays_readExponentDigits (mantissa : Decimal) (down : Bool) :
    Stays text Prod.snd (readExponentDigits mantissa down text) := by
  have hrest : text.dropWhile Char.isDigit <:+ text := List.dropWhile_suffix _
  unfold readExponentDigits
  split
  · exact stays_refuse_end _
  · rename_i first more
    split
    · split
      · exact (stays_finishDecimal _ _).mono hrest
      · rename_i unread hunread
        split
        · exact hrest
        · obtain ⟨front, hdigits⟩ := suffix_of_exponentOf hunread
          refine stays_refuse _ ⟨front, ?_⟩
          rw [← List.append_assoc, hdigits, List.takeWhile_append_dropWhile]
    · exact stays_refuseNext _

theorem stays_readExponent (mantissa : Decimal) :
    Stays text Prod.snd (readExponent mantissa text) := by
  unfold readExponent
  split
  · exact (stays_readExponentDigits _ mantissa false).cons _
  · exact (stays_readExponentDigits _ mantissa true).cons _
  · exact stays_readExponentDigits text mantissa false

theorem stays_readFraction (whole : Decimal) :
    Stays text Prod.snd (readFraction whole text) := by
  have hrest : text.dropWhile Char.isDigit <:+ text := List.dropWhile_suffix _
  unfold readFraction
  refine Stays.mono ?_ hrest
  dsimp only
  split
  · split
    · exact stays_refuse_end _
    · exact stays_refuseNext _
  · split
    · rename_i rest hletter
      rw [hletter]
      exact (stays_readExponent rest _).cons _
    · rename_i rest hletter
      rw [hletter]
      exact (stays_readExponent rest _).cons _
    · exact stays_finishDecimal _ _

theorem stays_readAfterWhole (negative : Bool) (digits : List Char) :
    Stays text Prod.snd (readAfterWhole negative digits text) := by
  unfold readAfterWhole
  dsimp only
  split
  · exact (stays_readFraction _ _).cons _
  · exact (stays_readExponent _ _).cons _
  · exact (stays_readExponent _ _).cons _
  · split
    · exact List.suffix_rfl
    · exact stays_finishDecimal text _

theorem stays_readNumber (negative : Bool) :
    Stays text Prod.snd (readNumber negative text) := by
  unfold readNumber
  split
  · exact stays_refuse_end _
  · split
    · exact (stays_refuseNext _).cons _
    · exact (stays_readAfterWhole _ negative ['0']).cons _
  · split
    · exact (stays_readAfterWhole _ negative _).mono (List.dropWhile_suffix _)
    · exact stays_refuseNext _

theorem stays_skipExponentDigits : Stays text id (skipExponentDigits text) := by
  unfold skipExponentDigits
  split
  · exact List.dropWhile_suffix _
  · exact stays_refuseNext _

theorem stays_skipExponent : Stays text id (skipExponent text) := by
  unfold skipExponent
  split
  · apply Stays.cons
    split
    · exact (stays_skipExponentDigits _).cons _
    · exact (stays_skipExponentDigits _).cons _
    · exact stays_skipExponentDigits _
  · apply Stays.cons
    split
    · exact (stays_skipExponentDigits _).cons _
    · exact (stays_skipExponentDigits _).cons _
    · exact stays_skipExponentDigits _
  · exact List.suffix_rfl

theorem stays_skipAfterWhole : Stays text id (skipAfterWhole text) := by
  unfold skipAfterWhole
  split
  · apply Stays.cons
    split
    · exact (stays_skipExponent _).mono (List.dropWhile_suffix _)
    · exact stays_refuseNext _
  · exact stays_skipExponent text

theorem stays_skipNumber : Stays text id (skipNumber text) := by
  unfold skipNumber
  split
  · apply Stays.cons
    split
    · exact stays_refuseNext _
    · exact stays_skipAfterWhole _
  · split
    · exact (stays_skipAfterWhole _).mono (List.dropWhile_suffix _)
    · exact stays_refuseNext _

end Numbers

/-! ## Values -/

section Values

variable (text : List Char)

/-- A text that no value starts with is refused at its first byte. -/
theorem stays_readScalar :
    Stays text Prod.snd ((readScalar? text).getD (refuseNext .expectedValue text)) := by
  unfold readScalar?
  split
  · exact ((stays_readWord _ _).cons _).map fun _ => rfl
  · exact ((stays_readWord _ _).cons _).map fun _ => rfl
  · exact ((stays_readWord _ _).cons _).map fun _ => rfl
  · exact ((stays_readString _).cons _).map fun _ => rfl
  · exact ((stays_readNumber _ true).cons _).map fun _ => rfl
  · split
    · exact (stays_readNumber _ false).map fun _ => rfl
    · exact stays_refuseNext _
  · exact stays_refuseNext _

theorem stays_skipScalar :
    Stays text id ((skipScalar? text).getD (refuseNext .expectedValue text)) := by
  unfold skipScalar?
  split
  · exact (stays_readWord _ _).cons _
  · exact (stays_readWord _ _).cons _
  · exact (stays_readWord _ _).cons _
  · exact (stays_skipStringFrom _ 0).cons _
  · exact (stays_skipNumber _).cons _
  · split
    · exact stays_skipNumber _
    · exact stays_refuseNext _
  · exact stays_refuseNext _

theorem stays_rejectValue {α : Type} (left : α → List Char) (expected : String) :
    Stays text left (rejectValue expected text) := by
  unfold rejectValue
  split
  · exact stays_reject _ List.suffix_rfl
  · exact stays_reject _ List.suffix_rfl
  · exact (stays_readScalar text).bind fun _ => stays_reject _ List.suffix_rfl

end Values

/-! ## Lists and objects -/

section Loops

variable {α σ : Type} {item : List Char → Except Refusal (α × List Char)}
  {member : σ → String → List Char → Except Refusal (σ × List Char)} (limit : Nat)
  (text : List Char)

theorem stays_readMoreItems (hitem : ∀ text, Stays text Prod.snd (item text)) :
    Stays text Prod.snd (readMoreItems item limit text) := by
  induction limit generalizing text with
  | zero => exact stays_refuse_end _
  | succ limit ih =>
    apply Stays.skipBlanks
    rw [readMoreItems]
    generalize skipBlanks text = found
    split
    · exact stays_refuse_end _
    · exact List.suffix_cons _ _
    · rename_i afterComma
      apply Stays.cons
      apply Stays.skipBlanks
      generalize skipBlanks afterComma = next
      split
      · exact stays_refuse_end _
      · exact stays_refuseNext _
      · refine (hitem _).bind fun first => ?_
        exact (ih first.2).bind fun more => List.suffix_rfl
    · exact stays_refuseNext _

theorem stays_readItems (hitem : ∀ text, Stays text Prod.snd (item text)) :
    Stays text Prod.snd (readItems item limit text) := by
  apply Stays.skipBlanks
  rw [readItems]
  generalize skipBlanks text = found
  split
  · exact stays_refuse_end _
  · exact List.suffix_cons _ _
  · refine (hitem _).bind fun first => ?_
    exact (stays_readMoreItems limit first.2 hitem).bind fun more => List.suffix_rfl

theorem stays_readKeyed (hmember : ∀ state key text, Stays text Prod.snd (member state key text))
    (state : σ) : Stays text Prod.snd (readKeyed member state text) :=
  (stays_readString text).bind fun key => hmember state key.1 key.2

theorem stays_readMoreMembers
    (hmember : ∀ state key text, Stays text Prod.snd (member state key text)) (state : σ) :
    Stays text Prod.snd (readMoreMembers member limit state text) := by
  induction limit generalizing state text with
  | zero => exact stays_refuse_end _
  | succ limit ih =>
    apply Stays.skipBlanks
    rw [readMoreMembers]
    generalize skipBlanks text = found
    split
    · exact stays_refuse_end _
    · exact List.suffix_cons _ _
    · rename_i afterComma
      apply Stays.cons
      apply Stays.skipBlanks
      generalize skipBlanks afterComma = next
      split
      · exact stays_refuse_end _
      · exact ((stays_readKeyed _ hmember state).cons _).bind fun read => ih read.2 read.1
      · exact stays_refuseNext _
      · exact stays_refuseNext _
    · exact stays_refuseNext _

theorem stays_readMembers
    (hmember : ∀ state key text, Stays text Prod.snd (member state key text)) (state : σ) :
    Stays text Prod.snd (readMembers member limit state text) := by
  apply Stays.skipBlanks
  rw [readMembers]
  generalize skipBlanks text = found
  split
  · exact stays_refuse_end _
  · exact List.suffix_cons _ _
  · refine ((stays_readKeyed _ hmember state).cons _).bind fun read => ?_
    exact stays_readMoreMembers limit read.2 hmember read.1
  · exact stays_refuseNext _

theorem stays_readMember {value : List Char → Except Refusal (Value × List Char)}
    (hvalue : ∀ text, Stays text Prod.snd (value text)) (members : List (String × Value))
    (key : String) : Stays text Prod.snd (readMember value members key text) := by
  refine (stays_readColon text).bind fun rest => ?_
  exact (hvalue rest).bind fun read => List.suffix_rfl

/-- The reader of values, brackets and all. -/
theorem stays_readValue (depth : Nat) : Stays text Prod.snd (readValue limit depth text) := by
  induction depth generalizing text with
  | zero =>
    apply Stays.skipBlanks
    rw [readValue]
    generalize skipBlanks text = found
    split
    · exact stays_refuse_end _
    · exact stays_refuseNext _
    · exact stays_refuseNext _
    · exact stays_readScalar _
  | succ depth ih =>
    have hmember := fun members key text => stays_readMember text ih members key
    apply Stays.skipBlanks
    rw [readValue]
    generalize skipBlanks text = found
    split
    · exact stays_refuse_end _
    · exact ((stays_readItems limit _ ih).cons _).bind fun read => List.suffix_rfl
    · exact ((stays_readMembers limit _ hmember []).cons _).bind fun read => List.suffix_rfl
    · exact stays_readScalar _

end Loops

/-! ## Skipped values -/

section Skipped

variable (text : List Char)

theorem stays_skipKey : Stays text id (skipKey text) := by
  apply Stays.skipBlanks
  rw [skipKey]
  generalize skipBlanks text = found
  split
  · exact ((stays_skipStringFrom _ 0).cons _).bind fun rest => stays_readColon rest
  · exact stays_refuse_end _
  · exact stays_refuseNext _

theorem stays_toEntry (bracket : Bracket) : Stays text id (bracket.toEntry text) := by
  cases bracket with
  | list => exact List.suffix_rfl
  | object => exact stays_skipKey text

theorem stays_skipFrom (steps : Nat) (state : SkipState) (enclosing : List Bracket) :
    Stays text id (skipFrom steps state enclosing text) := by
  induction steps generalizing state enclosing text with
  | zero => exact stays_refuse_end _
  | succ steps ih =>
    cases state with
    | before =>
      apply Stays.skipBlanks
      rw [skipFrom]
      generalize skipBlanks text = found
      split
      · exact stays_refuse_end _
      · exact (ih _ _ _).cons _
      · exact (ih _ _ _).cons _
      · exact (stays_skipScalar _).bind fun rest => ih rest _ _
    | opened bracket =>
      apply Stays.skipBlanks
      rw [skipFrom]
      generalize skipBlanks text = found
      split
      · exact stays_refuse_end _
      · split
        · exact (ih _ _ _).cons _
        · exact (stays_toEntry _ bracket).bind fun rest => ih rest _ _
    | after =>
      cases enclosing with
      | nil => exact List.suffix_rfl
      | cons bracket enclosing =>
        apply Stays.skipBlanks
        rw [skipFrom]
        generalize skipBlanks text = found
        split
        · exact stays_refuse_end _
        · split
          · exact (ih _ _ _).cons _
          · split
            · exact ((stays_toEntry _ bracket).cons _).bind fun rest => ih rest _ _
            · exact stays_refuseNext _

theorem stays_skipValue (limit : Nat) : Stays text id (skipValue limit text) :=
  stays_skipFrom text _ .before []

end Skipped

end ShaderScript.Json
