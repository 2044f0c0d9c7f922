import ShaderScript.Emit.Document
import ShaderScript.Proofs.InfixReading

/-!
# Arithmetic on numerals

Arithmetic on numerals is emitted as it was written, operator by operator and without parentheses.
A script reads the text as exactly one tree, by its own rules of grouping. That is the tree that was
emitted exactly if its grouping follows those rules; a sum under a product, or a difference on the
right of another, comes back as another tree.
-/

namespace ShaderScript

namespace Node

/-- Arithmetic on plain decimal numbers. -/
inductive IsConstant : Node → Prop
  | number {value : String} (h : Infix.isDecimal value.toList) : IsConstant (.number value .float)
  | operator (op : ArithmeticOp) {left right : Node} (hleft : IsConstant left)
    (hright : IsConstant right) : IsConstant (.operator op.val left right)

/-- The grouping needs no parentheses: operators bind at least as tightly as the level says, those
on the left of an operator at least as tightly as it does, and those on its right tighter. -/
def groupsAt : (level : Nat) → Node → Bool
  | level, .operator op left right =>
    decide (level ≤ op.tightness) && left.groupsAt op.tightness && right.groupsAt (op.tightness + 1)
  | _, _ => true

theorem groupsAt_operator (level : Nat) (op : BinaryOp) (left right : Node) :
    (Node.operator op left right).groupsAt level ↔
      level ≤ op.tightness ∧ left.groupsAt op.tightness ∧ right.groupsAt (op.tightness + 1) := by
  simp [groupsAt, and_assoc]

end Node

/-- What numerals and operators stand for. -/
structure Meaning (α : Type) where
  numeral : String → α
  combine : BinaryOp → α → α → α

namespace Meaning

variable {α : Type}

/-- The value of arithmetic on numbers. -/
def value (meaning : Meaning α) : Node → Option α
  | .number text .float => some (meaning.numeral text)
  | .operator op left right =>
    (meaning.value left).bind fun first => (meaning.value right).map (meaning.combine op first)
  | _ => none

/-- Trees are values, too. -/
def ofTrees : Meaning Node where
  numeral text := .number text .float
  combine := .operator

end Meaning

namespace Infix

/-! ## Tokens of a tree -/

/-- The tokens are those of the tree from left to right, without parentheses. -/
inductive Inorder : Node → List Token → Prop
  | numeral (text : String) : Inorder (.number text .float) [.numeral text]
  | binary (op : ArithmeticOp) {left right : Node} {before after : List Token}
    (hleft : Inorder left before) (hright : Inorder right after) :
    Inorder (.operator op.val left right) (before ++ .operator op :: after)

namespace Inorder

variable {node : Node} {tokens : List Token}

theorem opening_notMem (h : Inorder node tokens) : Token.opening ∉ tokens := by
  induction h with
  | numeral => simp
  | binary op _ _ ihleft ihright => simp [ihleft, ihright]

/-- A tree that needs no parentheses can be read off its tokens. -/
theorem derives {level : Nat} (h : Inorder node tokens) (hgroups : node.groupsAt level) :
    Derives level tokens node := by
  induction h generalizing level with
  | numeral text => exact .numeral level text
  | binary op _ _ ihleft ihright =>
    rw [Node.groupsAt_operator] at hgroups
    obtain ⟨hop, hleft, hright⟩ := hgroups
    exact .binary hop (ihleft hleft) (ihright hright)

theorem value_ofTrees (h : Inorder node tokens) : Meaning.ofTrees.value node = some node := by
  induction h with
  | numeral => rfl
  | binary op _ _ ihleft ihright =>
    rw [Meaning.value, ihleft, ihright]
    rfl

end Inorder

variable {level : Nat} {tokens : List Token} {node : Node}

/-- What is read without parentheses needs none. -/
theorem Derives.groupsAt (h : Derives level tokens node) (hopen : Token.opening ∉ tokens) :
    node.groupsAt level := by
  induction h with
  | numeral => rfl
  | parenthesized => simp at hopen
  | binary hop _ _ ihleft ihright =>
    simp only [List.mem_append, List.mem_cons, not_or] at hopen
    rw [Node.groupsAt_operator]
    exact ⟨hop, ihleft hopen.1, ihright hopen.2.2⟩

theorem Derives.exists_inorder (h : Derives level tokens node) : ∃ flat, Inorder node flat := by
  induction h with
  | numeral level text => exact ⟨_, .numeral text⟩
  | parenthesized _ _ ih => exact ih
  | @binary _ op _ _ _ _ _ _ _ ihleft ihright =>
    obtain ⟨before, hbefore⟩ := ihleft
    obtain ⟨after, hafter⟩ := ihright
    exact ⟨_, .binary op hbefore hafter⟩

/-! ## Every sequence can be read -/

/-- An expression can be continued by an operator and a numeral. The operator takes what binds at
least as tightly at the end of the expression, which is all of it or its last operand. -/
theorem Derives.exists_append_numeral (h : Derives level tokens node) (op : ArithmeticOp)
    (hop : level ≤ op.val.tightness) (text : String) :
    ∃ next, Derives level (tokens ++ [.operator op, .numeral text]) next := by
  induction h with
  | numeral level own => exact ⟨_, .binary hop (.numeral _ own) (.numeral _ text)⟩
  | parenthesized level h => exact ⟨_, .binary hop (.parenthesized _ h) (.numeral _ text)⟩
  | @binary level last hlast before after left right hleft hright _ ihright =>
    by_cases htight : op.val.tightness ≤ last.val.tightness
    · exact ⟨_, .binary hop (.binary htight hleft hright) (.numeral _ text)⟩
    · obtain ⟨next, hnext⟩ := ihright (Nat.lt_of_not_le htight)
      have hall := Derives.binary hlast hleft hnext
      exact ⟨_, by simpa using hall⟩

theorem Derives.exists_append (h : Derives 0 tokens node) (op : ArithmeticOp) {operand : Node}
    {after : List Token} (hoperand : Inorder operand after) :
    ∃ next, Derives 0 (tokens ++ .operator op :: after) next := by
  induction hoperand generalizing tokens node op with
  | numeral text => exact h.exists_append_numeral op (Nat.zero_le _) text
  | binary inner _ _ ihleft ihright =>
    obtain ⟨middle, hmiddle⟩ := ihleft h op
    obtain ⟨next, hnext⟩ := ihright hmiddle inner
    exact ⟨next, by simpa using hnext⟩

theorem Inorder.exists_derives (h : Inorder node tokens) : ∃ read, Derives 0 tokens read := by
  induction h with
  | numeral text => exact ⟨_, .numeral 0 text⟩
  | binary op _ hright ihleft _ =>
    obtain ⟨first, hfirst⟩ := ihleft
    exact hfirst.exists_append op hright

/-! ## Emitted arithmetic -/

theorem startsNumeral_of_isDecimal {chars : List Char} (h : isDecimal chars) :
    startsNumeral chars := by
  cases chars with
  | nil => cases h
  | cons c chars =>
    by_cases hc : c.isDigit
    · have hpoint : c ≠ '.' := by
        rintro rfl
        cases hc
      simpa [startsNumeral, hpoint] using hc
    · -- without a digit before it, the point has one behind it
      simp only [isDecimal, List.takeWhile_cons, List.dropWhile_cons, hc, Bool.false_eq_true,
        if_false, List.isEmpty_nil, Bool.true_and] at h
      split at h
      · cases h
      · rename_i fraction heq
        obtain ⟨rfl, rfl⟩ := List.cons.inj heq
        cases chars with
        | nil => cases h
        | cons d chars =>
          have hall := (Bool.and_eq_true_iff.mp h).1
          exact (Bool.and_eq_true_iff.mp hall).1
      · cases h

theorem startsNumeral_append {chars : List Char} (h : startsNumeral chars) (rest : List Char) :
    startsNumeral (chars ++ rest) := by
  unfold startsNumeral at h
  split at h
  · exact h
  · rename_i c chars hpoint
    cases chars with
    | nil =>
      have hc : c ≠ '.' := by
        rintro rfl
        cases h
      simpa [startsNumeral, hc] using h
    | cons d chars =>
      have hc : c ≠ '.' := fun hc => hpoint d chars hc rfl
      simpa [startsNumeral, hc] using h
  · cases h

theorem startsLiteral_of_startsNumeral {text : String} (h : startsNumeral text.toList) :
    startsLiteral text := by
  -- a minus sign is taken off first, and there is none
  have hminus : ∀ rest, text.toList = '-' :: rest → False := by
    intro rest he
    rw [he] at h
    cases h
  unfold startsLiteral
  simp only [Bool.or_eq_true]
  exact .inr h

/-- Only the start of a text is looked at, so arithmetic on numerals counts as a literal itself. -/
theorem emit_constant (context : Context) (h : node.IsConstant) :
    startsNumeral (emit context node).text.toList ∧
      ∃ tokens, Inorder node tokens ∧ tokens? [] (emit context node).text.toList = some tokens := by
  induction h with
  | @number value h =>
    have hvalue : (emit context (.number value .float)).text = value := by
      have hne : value.isEmpty = false := by
        rw [← Bool.not_eq_true, String.isEmpty_iff]
        rintro rfl
        cases h
      simp [emit, Form.number, NumberKind.isNarrow, Fragment.plain, Script.orUnknown, hne]
    rw [hvalue]
    exact ⟨startsNumeral_of_isDecimal h, _, .numeral value, tokens?_decimal h⟩
  | @operator op left right _ _ ihleft ihright =>
    obtain ⟨hleftStarts, before, hbefore, hleftTokens⟩ := ihleft
    obtain ⟨hrightStarts, after, hafter, hrightTokens⟩ := ihright
    have hleftLiteral := startsLiteral_of_startsNumeral hleftStarts
    have hrightLiteral := startsLiteral_of_startsNumeral hrightStarts
    have htext : (emit context (.operator op.val left right)).text.toList =
        (emit context left).text.toList ++
          ' ' :: (op.val.spelling.toList ++ ' ' :: (emit context right).text.toList) := by
      simp [emit, Form.binary, hleftLiteral, hrightLiteral]
    rw [htext]
    refine ⟨startsNumeral_append hleftStarts _, _, .binary op hbefore hafter, ?_⟩
    rw [tokens?_blank, tokens?_blank, hleftTokens, tokens?_operator, hrightTokens]
    rfl

end Infix

open Infix

/-- Emitted arithmetic is read as one tree. It is the tree that was emitted, and has its value
whatever numerals and operators stand for, exactly if that tree needs no parentheses. -/
theorem constant_read_back_iff (context : Context) {node : Node} (h : node.IsConstant) :
    ∃ read, (∀ other, Denotes (emit context node).text other ↔ other = read) ∧
      (read = node ↔ node.groupsAt 0) ∧
      ((∀ (α : Type) (meaning : Meaning α), meaning.value read = meaning.value node) ↔
        node.groupsAt 0) := by
  obtain ⟨-, tokens, hinorder, htokens⟩ := emit_constant context h
  obtain ⟨read, hread⟩ := hinorder.exists_derives
  have hdenotes : Denotes (emit context node).text read := ⟨tokens, htokens, hread⟩
  have hsame : read = node ↔ node.groupsAt 0 := by
    constructor
    · rintro rfl
      exact hread.groupsAt hinorder.opening_notMem
    · intro hgroups
      exact hdenotes.unique ⟨tokens, htokens, hinorder.derives hgroups⟩
  refine ⟨read, ?_, hsame, ?_⟩
  · intro other
    constructor
    · intro hother
      exact hother.unique hdenotes
    · rintro rfl
      exact hdenotes
  · constructor
    · intro hvalue
      obtain ⟨flat, hflat⟩ := hread.exists_inorder
      have htrees := hvalue Node .ofTrees
      rw [hflat.value_ofTrees, hinorder.value_ofTrees] at htrees
      exact hsame.mp (Option.some.inj htrees)
    · intro hgroups α meaning
      rw [hsame.mpr hgroups]

/-- `2 * 3 - .5 % 4.0`, whose products are grouped before the difference. -/
theorem difference_of_products_read_back :
    let node : Node := .operator .sub
      (.operator .mul (.number "2" .float) (.number "3" .float))
      (.operator .remainder (.number ".5" .float) (.number "4.0" .float))
    node.IsConstant ∧ node.groupsAt 0 ∧
      Denotes (emit (Section.context .default) node).text node := by
  intro node
  have hconstant : node.IsConstant :=
    .operator ⟨.sub, rfl⟩ (.operator ⟨.mul, rfl⟩ (.number rfl) (.number rfl))
      (.operator ⟨.remainder, rfl⟩ (.number rfl) (.number rfl))
  have hgroups : node.groupsAt 0 := rfl
  obtain ⟨read, hdenotes, hsame, -⟩ := constant_read_back_iff (Section.context .default) hconstant
  exact ⟨hconstant, hgroups, (hdenotes node).mpr (hsame.mpr hgroups).symm⟩

/-- Whole numbers and their arithmetic. -/
def Meaning.wholeNumbers : Meaning Int where
  numeral text := text.toList.foldl (fun value c => 10 * value + (c.toNat - '0'.toNat)) 0
  combine op left right :=
    match op with
    | .add => left + right
    | .sub => left - right
    | .mul => left * right
    | .div => left / right
    | .remainder => left % right
    | _ => 0

/-- A sum under a product loses its grouping: `1 + 2 * 3` is seven and not nine. -/
theorem product_of_sum_regrouped :
    let one : Node := .number "1" .float
    let two : Node := .number "2" .float
    let three : Node := .number "3" .float
    let node : Node := .operator .mul (.operator .add one two) three
    let read : Node := .operator .add one (.operator .mul two three)
    node.IsConstant ∧ (emit (Section.context .default) node).text = "1 + 2 * 3" ∧
      Denotes (emit (Section.context .default) node).text read ∧
        ¬ Denotes (emit (Section.context .default) node).text node ∧
          Meaning.wholeNumbers.value node = some 9 ∧ Meaning.wholeNumbers.value read = some 7 := by
  intro one two three node read
  have hconstant : node.IsConstant :=
    .operator ⟨.mul, rfl⟩ (.operator ⟨.add, rfl⟩ (.number rfl) (.number rfl)) (.number rfl)
  have htext : (emit (Section.context .default) node).text = "1 + 2 * 3" := by decide +kernel
  have hinorder := Inorder.binary ⟨.add, rfl⟩ (.numeral "1")
    (.binary ⟨.mul, rfl⟩ (.numeral "2") (.numeral "3"))
  have hread : Denotes (emit (Section.context .default) node).text read :=
    ⟨_, by rw [htext]; decide +kernel, hinorder.derives rfl⟩
  refine ⟨hconstant, htext, hread, ?_, by decide +kernel, by decide +kernel⟩
  intro hnode
  have hsame : node = read := hnode.unique hread
  simp [node, read] at hsame

end ShaderScript
