import ShaderScript.Node.Basic

/-!
# Reading arithmetic

How a script reads arithmetic on numerals. `*`, `/` and `%` bind tighter than `+` and `-`, operators
that bind alike are grouped from the left, and parentheses group what they enclose. A grammar says
which tree a text stands for. A reader with a stack finds that tree, so a text never stands for two.
-/

namespace ShaderScript

/-- How tightly an arithmetic operator binds. -/
def BinaryOp.tightness : BinaryOp → Nat
  | .mul | .div | .remainder => 1
  | _ => 0

/-- `+`, `-`, `*`, `/` or `%`. -/
abbrev ArithmeticOp := { op : BinaryOp // op.category = .arithmetic }

namespace Infix

/-! ## Tokens -/

inductive Token where
  | numeral (text : String)
  | operator (op : ArithmeticOp)
  | opening
  | closing
deriving DecidableEq

/-- Digits, with a point before, between or after them. -/
def isDecimal (chars : List Char) : Bool :=
  let whole := chars.takeWhile Char.isDigit
  match chars.dropWhile Char.isDigit with
  | [] => !whole.isEmpty
  | '.' :: fraction => fraction.all Char.isDigit && !(whole.isEmpty && fraction.isEmpty)
  | _ => false

/-- The numeral that a run of digits and points is, if there is any run. -/
def numeral? (run : List Char) : Option (List Token) :=
  if run.isEmpty then some []
  else if isDecimal run then some [.numeral (String.ofList run)]
  else none

/-- The token that a character outside numerals is. Blanks are none. -/
def mark? : Char → Option (List Token)
  | ' ' | '\t' | '\n' => some []
  | '(' => some [.opening]
  | ')' => some [.closing]
  | '+' => some [.operator ⟨.add, rfl⟩]
  | '-' => some [.operator ⟨.sub, rfl⟩]
  | '*' => some [.operator ⟨.mul, rfl⟩]
  | '/' => some [.operator ⟨.div, rfl⟩]
  | '%' => some [.operator ⟨.remainder, rfl⟩]
  | _ => none

def isNumeralChar (c : Char) : Bool :=
  c.isDigit || c == '.'

/-- The tokens of a text, after the start of a numeral. -/
def tokens? (run : List Char) : List Char → Option (List Token)
  | [] => numeral? run
  | c :: chars =>
    if isNumeralChar c then tokens? (run ++ [c]) chars
    else do
      let numeral ← numeral? run
      let mark ← mark? c
      (numeral ++ mark ++ ·) <$> tokens? [] chars

/-- Before a blank the text can be cut. -/
theorem tokens?_blank (run chars rest : List Char) :
    tokens? run (chars ++ ' ' :: rest) =
      (tokens? run chars).bind fun first => (tokens? [] rest).map (first ++ ·) := by
  induction chars generalizing run with
  | nil => cases h : numeral? run <;> simp [tokens?, isNumeralChar, mark?, h]
  | cons c chars ih =>
    by_cases hc : isNumeralChar c
    · simp only [List.cons_append, tokens?, hc, if_true, ih]
    · simp only [List.cons_append, tokens?, hc, ih]
      cases numeral? run <;> cases mark? c <;> cases tokens? [] chars <;> simp [Function.comp_def]

theorem tokens?_run (run chars : List Char) (h : chars.all isNumeralChar) :
    tokens? run chars = numeral? (run ++ chars) := by
  induction chars generalizing run with
  | nil => simp [tokens?]
  | cons c chars ih =>
    obtain ⟨hc, hchars⟩ := Bool.and_eq_true_iff.mp h
    simp [tokens?, hc, ih _ hchars]

theorem all_isNumeralChar {chars : List Char} (h : isDecimal chars) : chars.all isNumeralChar := by
  have hdigits {digits : List Char} (hall : digits.all Char.isDigit) :
      digits.all isNumeralChar := by
    rw [List.all_eq_true] at hall ⊢
    intro c hc
    simp [isNumeralChar, hall c hc]
  have hrest : (chars.dropWhile Char.isDigit).all isNumeralChar := by
    unfold isDecimal at h
    simp only at h
    split at h
    · rename_i hdrop
      rw [hdrop]
      rfl
    · rename_i fraction hdrop
      have hfraction := hdigits (Bool.and_eq_true_iff.mp h).1
      rw [hdrop, List.all_cons, hfraction]
      decide
    · cases h
  have hparts :
      (chars.takeWhile Char.isDigit ++ chars.dropWhile Char.isDigit).all isNumeralChar := by
    rw [List.all_append, hdigits List.all_takeWhile, hrest]
    rfl
  rwa [List.takeWhile_append_dropWhile] at hparts

/-- A numeral by itself is one token. -/
theorem tokens?_decimal {text : String} (h : isDecimal text.toList) :
    tokens? [] text.toList = some [.numeral text] := by
  have hne : text.toList ≠ [] := by
    intro he
    rw [he] at h
    cases h
  rw [tokens?_run _ _ (all_isNumeralChar h), List.nil_append, numeral?]
  simp [hne, h]

theorem tokens?_operator (op : ArithmeticOp) :
    tokens? [] op.val.spelling.toList = some [.operator op] := by
  obtain ⟨op, h⟩ := op
  cases op <;> cases h <;> decide

/-! ## The grammar -/

/-- The tokens are an expression. Its operators outside parentheses bind at least as tightly as the
level says: on the left of an operator others may bind as tightly as it does, on the right they have
to bind tighter. -/
inductive Derives : (level : Nat) → List Token → Node → Prop
  | numeral (level : Nat) (text : String) : Derives level [.numeral text] (.number text .float)
  | parenthesized (level : Nat) {tokens : List Token} {node : Node} (h : Derives 0 tokens node) :
    Derives level (.opening :: tokens ++ [.closing]) node
  | binary {level : Nat} {op : ArithmeticOp} (hop : level ≤ op.val.tightness)
    {before after : List Token} {left right : Node}
    (hleft : Derives op.val.tightness before left)
    (hright : Derives (op.val.tightness + 1) after right) :
    Derives level (before ++ .operator op :: after) (.operator op.val left right)

/-- The text is an expression, and this is its tree. -/
def Denotes (text : String) (node : Node) : Prop :=
  ∃ tokens, tokens? [] text.toList = some tokens ∧ Derives 0 tokens node

/-! ## The reader -/

/-- What a reader remembers while it waits for an operand. -/
inductive Entry where
  /-- An operator with its left operand. -/
  | pending (left : Node) (op : ArithmeticOp)
  | opening

/-- Gives the node as right operand to the waiting operators that bind at least this tightly. -/
def reduce (level : Nat) : List Entry → Node → List Entry × Node
  | .pending left op :: stack, node =>
    if level ≤ op.val.tightness then reduce level stack (.operator op.val left node)
    else (.pending left op :: stack, node)
  | stack, node => (stack, node)

/-- Reads tokens, after an operand or where one is expected. -/
def read? : List Entry → Option Node → List Token → Option Node
  | stack, none, .numeral text :: tokens => read? stack (some (.number text .float)) tokens
  | stack, none, .opening :: tokens => read? (.opening :: stack) none tokens
  | stack, some node, .operator op :: tokens =>
    let (stack, left) := reduce op.val.tightness stack node
    read? (.pending left op :: stack) none tokens
  | stack, some node, .closing :: tokens =>
    match reduce 0 stack node with
    | (.opening :: stack, node) => read? stack (some node) tokens
    | _ => none
  | stack, some node, [] =>
    match reduce 0 stack node with
    | ([], node) => some node
    | _ => none
  | _, _, _ => none

/-- Every operator that waits on top of the stack binds looser than this. -/
def Bounded (level : Nat) : List Entry → Prop
  | .pending _ op :: _ => op.val.tightness < level
  | _ => True

theorem Bounded.mono {level higher : Nat} {stack : List Entry} (h : Bounded level stack)
    (hle : level ≤ higher) : Bounded higher stack := by
  cases stack with
  | nil => trivial
  | cons entry stack =>
    cases entry with
    | pending left op => exact Nat.lt_of_lt_of_le h hle
    | opening => trivial

theorem reduce_of_bounded {level : Nat} {stack : List Entry} (h : Bounded level stack)
    (node : Node) : reduce level stack node = (stack, node) := by
  cases stack with
  | nil => rfl
  | cons entry stack =>
    cases entry with
    | pending left op =>
      have hlt : op.val.tightness < level := h
      simp [reduce, Nat.not_le.mpr hlt]
    | opening => rfl

/-- Operators that bind tightly can be given their operand first. -/
theorem reduce_reduce {level higher : Nat} (hle : level ≤ higher) (stack : List Entry)
    (node : Node) :
    reduce level (reduce higher stack node).1 (reduce higher stack node).2 =
      reduce level stack node := by
  fun_induction reduce higher stack node with
  | case1 stack node left op hop ih =>
    rw [ih, reduce, if_pos (Nat.le_trans hle hop)]
  | case2 | case3 => rfl

/-- The reader takes in an expression: all that then waits for its end is what was on the stack. -/
theorem read?_derives {level : Nat} {tokens : List Token} {node : Node}
    (h : Derives level tokens node) (stack : List Entry) (hstack : Bounded level stack)
    (rest : List Token) :
    ∃ next last, read? stack none (tokens ++ rest) = read? next (some last) rest ∧
      reduce level next last = (stack, node) := by
  induction h generalizing stack rest with
  | numeral level text => exact ⟨stack, _, rfl, reduce_of_bounded hstack _⟩
  | @parenthesized level tokens node _ ih =>
    obtain ⟨next, last, hread, hreduce⟩ := ih (.opening :: stack) trivial (.closing :: rest)
    refine ⟨stack, node, ?_, reduce_of_bounded hstack node⟩
    simp only [List.cons_append, List.append_assoc, List.nil_append, read?, hread, hreduce]
  | @binary level op hop before after left right _ _ ihleft ihright =>
    have hleftStack : Bounded op.val.tightness stack := hstack.mono hop
    obtain ⟨middle, operand, hleft, hleftReduce⟩ :=
      ihleft stack hleftStack (.operator op :: after ++ rest)
    have hrightStack : Bounded (op.val.tightness + 1) (.pending left op :: stack) :=
      Nat.lt_succ_self _
    obtain ⟨next, last, hright, hrightReduce⟩ := ihright _ hrightStack rest
    refine ⟨next, last, ?_, ?_⟩
    · rw [List.append_assoc, hleft, List.cons_append, read?, hleftReduce]
      exact hright
    · have hle : level ≤ op.val.tightness + 1 := Nat.le_succ_of_le hop
      rw [← reduce_reduce hle, hrightReduce, reduce, if_pos hop]
      exact reduce_of_bounded hstack _

theorem read?_eq_some {tokens : List Token} {node : Node} (h : Derives 0 tokens node) :
    read? [] none tokens = some node := by
  obtain ⟨next, last, hread, hreduce⟩ := read?_derives h [] trivial []
  rw [List.append_nil] at hread
  rw [hread, read?, hreduce]

example :
    (tokens? [] "( 1 + 2 ) * 3".toList).bind (read? [] none) =
      some (.operator .mul (.operator .add (.number "1" .float) (.number "2" .float))
        (.number "3" .float)) := by
  rfl

/-- A text has at most one tree. -/
theorem Denotes.unique {text : String} {node other : Node} (h : Denotes text node)
    (hother : Denotes text other) : node = other := by
  obtain ⟨tokens, htokens, hderives⟩ := h
  obtain ⟨same, hsame, hderivesOther⟩ := hother
  obtain rfl : tokens = same := Option.some.inj (htokens.symm.trans hsame)
  exact Option.some.inj ((read?_eq_some hderives).symm.trans (read?_eq_some hderivesOther))

end Infix

end ShaderScript
