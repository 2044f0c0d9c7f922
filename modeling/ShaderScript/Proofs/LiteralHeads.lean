import ShaderScript.Proofs.InfixGrouping
import ShaderScript.Proofs.Sheets
import ShaderScript.Proofs.Traces

/-!
# Literals told from the tree

Operators and indices take their form from text: what matters is whether the text of an operand
starts like a literal. If names start like names and plain numbers like numerals, that is known from
the tree. A node is headed by a literal if the first thing it writes is one, and no text that comes
behind something else can turn it into a literal. So the forms do not depend on where a node stands.
-/

namespace ShaderScript

/-! ## Starts of text -/

/-- The text starts with a boolean. -/
def startsBoolean (text : String) : Bool :=
  "true".toList.isPrefixOf text.toList || "false".toList.isPrefixOf text.toList

/-- The text starts with an ASCII letter, an underscore or a dollar sign. -/
def startsName (text : String) : Bool :=
  text.toList.head?.any fun c => c.isAlpha || c == '_' || c == '$'

/-- The text starts with a character that no literal starts with. -/
def startsOther (text : String) : Bool :=
  text.toList.head?.any fun c => !(c.isDigit || ['t', 'f', '.', '-'].contains c)

/-- Whether the text starts like a literal is known, and no more text can change it, unless that
goes on with a letter. -/
def Settled (text : String) (literal : Bool) : Prop :=
  ∀ rest : String, (∀ c ∈ rest.toList.head?, c.isAlpha = false) →
    startsLiteral (text ++ rest) = literal

theorem not_isDigit_of_isAlpha {c : Char} (h : c.isAlpha) : c.isDigit = false := by
  have hletter : 'A'.val ≤ c.val ∨ 'a'.val ≤ c.val := by
    rcases Bool.or_eq_true_iff.mp h with hupper | hlower
    · exact .inl (of_decide_eq_true hupper).1
    · exact .inr (of_decide_eq_true (Bool.and_eq_true_iff.mp hlower).1)
  have hnine : ¬ c.val ≤ '9'.val := by
    rw [UInt32.le_iff_toNat_le, UInt32.le_iff_toNat_le] at hletter
    rw [UInt32.le_iff_toNat_le]
    have hA : 'A'.val.toNat = 65 := rfl
    have ha : 'a'.val.toNat = 97 := rfl
    have hlast : '9'.val.toNat = 57 := rfl
    omega
  exact Bool.and_eq_false_iff.mpr (.inr (decide_eq_false hnine))

/-- A word of letters cannot be completed by text that starts with something else. -/
theorem isPrefixOf_append_of_head {word chars rest : List Char} (hword : ∀ c ∈ word, c.isAlpha)
    (hrest : ∀ c ∈ rest.head?, c.isAlpha = false) :
    word.isPrefixOf (chars ++ rest) = word.isPrefixOf chars := by
  induction word generalizing chars with
  | nil => rfl
  | cons c word ih =>
    obtain ⟨hc, hword⟩ := List.forall_mem_cons.mp hword
    cases chars with
    | cons d chars => rw [List.cons_append, List.isPrefixOf, List.isPrefixOf, ih hword]
    | nil =>
      cases rest with
      | nil => rfl
      | cons d rest =>
        have hd := hrest d rfl
        have hne : (c == d) = false := by
          rw [beq_eq_false_iff_ne]
          rintro rfl
          exact Bool.noConfusion (hc.symm.trans hd)
        simp [List.isPrefixOf, hne]

theorem startsBoolean_append {text rest : String}
    (hrest : ∀ c ∈ rest.toList.head?, c.isAlpha = false) :
    startsBoolean (text ++ rest) = startsBoolean text := by
  rw [startsBoolean, String.toList_append, isPrefixOf_append_of_head (by simp) hrest,
    isPrefixOf_append_of_head (by simp) hrest, startsBoolean]

/-- Where no numeral can start, only booleans are literals. -/
theorem startsLiteral_of_first {text : String} {c : Char} {rest : List Char}
    (htext : text.toList = c :: rest) (hdigit : c.isDigit = false) (hpoint : c ≠ '.')
    (hminus : c ≠ '-') : startsLiteral text = startsBoolean text := by
  simp [startsLiteral, startsBoolean, htext, startsNumeral, hdigit, hpoint, hminus]

theorem startsOther_append {text : String} (h : startsOther text) (other : String) :
    startsOther (text ++ other) := by
  cases hchars : text.toList with
  | nil => simp [startsOther, hchars] at h
  | cons c rest => simpa [startsOther, hchars] using h

theorem startsOther_apply {name : String} (h : startsOther name) (args : List String) :
    startsOther (Script.apply name args) := by
  cases args with
  | nil => exact startsOther_append h _
  | cons => exact startsOther_append (startsOther_append (startsOther_append h _) _) _

/-- A literal stays one whatever follows. -/
theorem startsLiteral_append {text : String} (h : startsLiteral text) (rest : String) :
    startsLiteral (text ++ rest) := by
  have hword {word : List Char} (hw : word.isPrefixOf text.toList) :
      word.isPrefixOf (text ++ rest).toList := by
    rw [List.isPrefixOf_iff_prefix] at hw ⊢
    rw [String.toList_append]
    exact hw.trans (List.prefix_append _ _)
  simp only [startsLiteral, Bool.or_eq_true] at h ⊢
  obtain (htrue | hfalse) | hnumeral := h
  · exact .inl (.inl (hword htrue))
  · exact .inl (.inr (hword hfalse))
  · right
    rw [String.toList_append]
    cases hchars : text.toList with
    | nil => simp [hchars, startsNumeral] at hnumeral
    | cons c chars =>
      rw [hchars] at hnumeral
      by_cases hminus : c = '-'
      · subst hminus
        exact Infix.startsNumeral_append hnumeral rest.toList
      · have hstart : startsNumeral (c :: chars) := by simpa [hminus] using hnumeral
        simpa [hminus] using Infix.startsNumeral_append hstart rest.toList

namespace Settled

variable {text : String} {literal : Bool}

theorem eq (h : Settled text literal) : startsLiteral text = literal := by
  simpa using h "" (by simp)

theorem append (h : Settled text literal) {other : String}
    (hother : ∀ c ∈ other.toList.head?, c.isAlpha = false) : Settled (text ++ other) literal := by
  intro rest hrest
  rw [String.append_assoc]
  refine h (other ++ rest) fun c hc => ?_
  rw [String.toList_append, List.head?_append] at hc
  cases hfirst : other.toList.head? with
  | none => exact hrest c (by simpa [hfirst] using hc)
  | some first =>
    obtain rfl : first = c := by simpa [hfirst] using hc
    exact hother first hfirst

/-- The same where the text goes on with a fixed start. -/
theorem onto (h : Settled text literal) (start : String)
    (hstart : start.toList.head?.any fun c => !c.isAlpha) (rest : String) :
    Settled (text ++ (start ++ rest)) literal := by
  refine h.append fun c hc => ?_
  cases hchars : start.toList with
  | nil => simp [hchars] at hstart
  | cons d chars =>
    obtain rfl : d = c := by simpa [hchars] using hc
    simpa [hchars] using hstart

theorem apply (h : Settled text literal) (args : List String) :
    Settled (Script.apply text args) literal := by
  cases args with
  | nil => exact h.append (by simp)
  | cons first rest =>
    have hcall := h.onto "( " (by decide) (Script.join (first :: rest) ++ " )")
    simpa [Script.apply, String.append_assoc] using hcall

theorem method (h : Settled text literal) (name : String) (args : List String) :
    Settled (Script.method text name args) literal := by
  rw [Script.method, String.append_assoc]
  exact h.onto "." (by decide) _

/-- Five characters decide. -/
theorem fixed (start : String) (hlength : 5 ≤ start.toList.length) (rest : String) :
    Settled (start ++ rest) (startsLiteral start) := by
  intro further _
  refine Alike.startsLiteral_eq ?_
  have halike := Alike.common hlength (rest ++ further).toList []
  simpa [String.append_assoc] using halike

theorem other (h : startsOther text) : Settled text false := by
  intro rest _
  cases hchars : text.toList with
  | nil => simp [startsOther, hchars] at h
  | cons c chars =>
    have hc : c.isDigit = false ∧ c ≠ 't' ∧ c ≠ 'f' ∧ c ≠ '.' ∧ c ≠ '-' := by
      simpa [startsOther, hchars] using h
    obtain ⟨hdigit, ht, hf, hpoint, hminus⟩ := hc
    have hall : (text ++ rest).toList = c :: (chars ++ rest.toList) := by simp [hchars]
    rw [startsLiteral_of_first hall hdigit hpoint hminus, startsBoolean, hall]
    simp [List.isPrefixOf, ht.symm, hf.symm]

/-- A name is a literal exactly if it starts with a boolean. -/
theorem name (h : startsName text) : Settled text (startsBoolean text) := by
  intro rest hrest
  cases hchars : text.toList with
  | nil => simp [startsName, hchars] at h
  | cons c chars =>
    have hc : (c.isAlpha ∨ c = '_') ∨ c = '$' := by simpa [startsName, hchars] using h
    have hall : (text ++ rest).toList = c :: (chars ++ rest.toList) := by simp [hchars]
    have hdigit : c.isDigit = false := by
      rcases hc with (halpha | rfl) | rfl
      · exact not_isDigit_of_isAlpha halpha
      · rfl
      · rfl
    rw [startsLiteral_of_first hall hdigit (by rintro rfl; revert hc; decide)
      (by rintro rfl; revert hc; decide), startsBoolean_append hrest]

theorem of_startsLiteral (h : startsLiteral text) : Settled text true :=
  fun rest _ => startsLiteral_append h rest

end Settled

/-! ## Forms -/

namespace Form

variable {left right operand : Fragment} {leftLiteral rightLiteral literal : Bool}

/-- The form of a binary operator whose operands are known to be literals or not. -/
def binaryAs (leftLiteral rightLiteral : Bool) (op : BinaryOp) (left right : Fragment) : Fragment :=
  let notes := left.notes ++ right.notes
  if leftLiteral && rightLiteral then
    ⟨left.text ++ " " ++ op.spelling ++ " " ++ right.text, notes⟩
  else if leftLiteral then
    ⟨Script.apply op.method [left.text, right.text], notes ++ [.mention op.method]⟩
  else if op = .member then ⟨left.text ++ "." ++ right.text, notes⟩
  else ⟨Script.method left.text op.method [right.text], notes⟩

/-- The form of a unary operator with the given combinator. -/
def unaryAs (literal : Bool) (name : String) (operand : Fragment) : Fragment :=
  if literal then ⟨Script.apply name [operand.text], operand.notes ++ [.mention name]⟩
  else ⟨Script.method operand.text name [], operand.notes⟩

/-- The form of an index. -/
def indexAs (literal : Bool) (value : Fragment) : Fragment :=
  if literal then ⟨Script.bracketed [value.text], value.notes⟩
  else ⟨"." ++ Script.apply "element" [value.text], value.notes⟩

theorem settled_conversion (kind : NumberKind) (args : List String) :
    Settled (Script.apply kind.spelling args) false := by
  cases kind with
  | float =>
    have hfloat : Settled ("float" ++ "") false := Settled.fixed "float" (by decide) ""
    exact hfloat.apply args
  | int | uint => exact .other (startsOther_apply (by decide) args)

theorem settled_number {value : String} {kind : NumberKind}
    (h : kind = .float → startsLiteral value) :
    Settled (number value kind).text (kind == .float) := by
  cases kind with
  | float =>
    have hvalue := h rfl
    have hne : value.isEmpty = false := by
      rw [← Bool.not_eq_true, String.isEmpty_iff]
      rintro rfl
      cases hvalue
    simpa [number, NumberKind.isNarrow, Fragment.plain, Script.orUnknown, hne] using
      Settled.of_startsLiteral hvalue
  | int | uint => exact settled_conversion _ [value]

theorem settled_accessor {property : String} (h : startsName property) :
    Settled (accessor property).text (startsBoolean property) := by
  have hne : property.isEmpty = false := by
    rw [← Bool.not_eq_true, String.isEmpty_iff]
    rintro rfl
    cases h
  simpa [accessor, Script.orUnknown, hne] using Settled.name h

theorem settled_binary (op : BinaryOp) (hleft : Settled left.text leftLiteral)
    (hright : Settled right.text rightLiteral) :
    Settled (binary op left right).text (leftLiteral && rightLiteral) := by
  unfold binary
  rw [hleft.eq, hright.eq]
  cases leftLiteral with
  | true =>
    cases rightLiteral with
    | true =>
      have htext := hleft.onto " " (by decide) (op.spelling ++ " " ++ right.text)
      simpa [String.append_assoc] using htext
    | false =>
      by_cases hop : op = .member
      · -- the combinator of member access is a point, which no digit follows here
        subst hop
        intro rest _
        simp [BinaryOp.method, Script.apply, startsLiteral, startsNumeral, List.isPrefixOf]
      · have hmethod : startsOther op.method := by
          cases op <;> first | decide | exact absurd rfl hop
        simpa using Settled.other (startsOther_apply hmethod [left.text, right.text])
  | false =>
    simp only [Bool.false_and, Bool.false_eq_true, if_false]
    split
    · rw [String.append_assoc]
      exact hleft.onto "." (by decide) _
    · exact hleft.method _ _

theorem settled_unary {op : UnaryOp} {trailing initializing : Bool}
    (hoperand : Settled operand.text literal) :
    Settled (unary op trailing initializing operand).text (op == .positive && literal) := by
  unfold unary
  cases hname : unaryMethod? op trailing initializing with
  | none =>
    obtain rfl : op = .positive := by
      cases op <;> first | rfl | cases hname
    simpa using hoperand
  | some name =>
    have hop : (op == .positive) = false := by
      cases op <;> first | rfl | cases hname
    have hother : startsOther name := by
      cases op <;> cases trailing <;> cases initializing <;> cases hname <;> decide
    simp only [hop, Bool.false_and]
    rw [hoperand.eq]
    cases literal with
    | true => exact .other (startsOther_apply hother _)
    | false => exact hoperand.method _ _

theorem head_link (element : Element Fragment) :
    (link element).text.toList.head?.any fun c => !c.isAlpha := by
  cases element with
  | member value => simp [link]
  | index value =>
    rw [link]
    split_ifs <;> simp [Script.bracketed]

theorem settled_chain (h : Settled operand.text literal) {links : List Fragment}
    (hlinks : ∀ part ∈ links, part.text.toList.head?.any fun c => !c.isAlpha) :
    Settled (chain operand links).text literal := by
  cases links with
  | nil => simpa [chain, Fragment.texts] using h
  | cons first rest =>
    have hchain := h.onto first.text (hlinks first List.mem_cons_self)
      (String.join (Fragment.texts rest))
    simpa [chain, Fragment.texts] using hchain

/-- The chain of a sampling call goes on from its first argument. -/
theorem settled_sampleChain {name chain : String} {args : List String}
    (h : ∀ arg ∈ args.head?, Settled arg literal) (hchain : sampleChain? name args = some chain) :
    Settled chain literal := by
  obtain ⟨call, -, hmatch⟩ := Option.bind_eq_some_iff.mp hchain
  split at hmatch <;> cases hmatch
  · exact (h _ rfl).method _ _
  all_goals exact ((h _ rfl).method _ _).method _ _

theorem settled_call {name : String} {args : List Fragment} (hname : startsName name)
    (hfirst : ∀ arg ∈ args.head?, Settled arg.text literal) :
    Settled (call name args).text
      (if SamplingCall.accepts name args.length then literal else startsBoolean name) := by
  have hsome := isSome_sampleChain?_eq_accepts name (Fragment.texts args)
  rw [Fragment.texts, List.length_map] at hsome
  unfold call
  cases hchain : sampleChain? name (Fragment.texts args) with
  | none =>
    have haccepts : SamplingCall.accepts name args.length = false := by
      rw [← hsome, ← Fragment.texts, hchain, Option.isSome_none]
    rw [haccepts]
    exact (Settled.name hname).apply _
  | some chain =>
    have haccepts : SamplingCall.accepts name args.length = true := by
      rw [← hsome, ← Fragment.texts, hchain, Option.isSome_some]
    rw [haccepts]
    refine settled_sampleChain (fun text htext => ?_) hchain
    rw [Fragment.texts, List.head?_map] at htext
    obtain ⟨arg, harg, rfl⟩ := Option.map_eq_some_iff.mp htext
    exact hfirst arg harg

end Form

/-! ## The tree -/

namespace Node

mutual

/-- The text of the node starts with a literal, as far as the tree tells. -/
def literalHeaded : Node → Bool
  | .number _ kind => kind == .float
  | .accessor property => startsBoolean property
  | .operator _ left right => left.literalHeaded && right.literalHeaded
  | .unary _ (.number ..) _ => false
  | .unary op operand _ => op == .positive && operand.literalHeaded
  | .chain object _ => object.literalHeaded
  | .call name args =>
    if SamplingCall.accepts name args.length then firstHeaded args else startsBoolean name
  | .string _ | .ternary .. | .return _ | .break | .continue | .discard | .bindings _ | .uniform ..
  | .varying .. | .function _ | .conditional .. | .switch .. | .loop .. | .unknown => false

/-- The first of the nodes is headed by a literal. -/
def firstHeaded : List Node → Bool
  | [] => false
  | node :: _ => node.literalHeaded

end

/-- What the node itself is named by starts as it should: names like names, and plain numbers like
literals. -/
def ownNamed : Node → Bool
  | .number value .float => startsLiteral value
  | .accessor property => startsName property
  | .call name _ => startsName name
  | _ => true

/-- Everything in the node is named as it should. -/
def WellNamed (node : Node) : Prop :=
  ∀ inner, node.Contains inner → inner.ownNamed

/-- The form of the operator, or of each index in the node, is the one that the tree tells, wherever
the node stands. -/
def FormKnown : Node → Prop
  | .operator op left right => ∀ context,
    emit context (.operator op left right) =
      Form.binaryAs left.literalHeaded right.literalHeaded op (emit context left)
        (emit context right)
  | .unary op operand trailing => (∀ value kind, operand ≠ .number value kind) →
    ∀ context name, Form.unaryMethod? op trailing context.initializing = some name →
      emit context (.unary op operand trailing) =
        Form.unaryAs operand.literalHeaded name (emit context operand)
  | .chain _ elements => ∀ value, .index value ∈ elements → ∀ context,
    emitElement context (.index value) =
      Form.indexAs value.literalHeaded (emit context value)
  | _ => True

variable {node : Node}

theorem wellNamed_iff : node.WellNamed ↔ node.ownNamed ∧ ∀ part ∈ node.parts, part.WellNamed := by
  constructor
  · intro h
    exact ⟨h node .refl, fun part hp inner hinner => h inner (.head hp hinner)⟩
  · rintro ⟨hown, hparts⟩ inner hinner
    obtain rfl | ⟨part, hp, hinner⟩ := Relation.ReflTransGen.cases_head hinner
    · exact hown
    · exact hparts part hp inner hinner

theorem WellNamed.part (h : node.WellNamed) {part : Node} (hp : part ∈ node.parts) :
    part.WellNamed :=
  (wellNamed_iff.mp h).2 part hp

theorem literalHeaded_unary {op : UnaryOp} {operand : Node} {trailing : Bool}
    (h : ∀ value kind, operand ≠ .number value kind) :
    literalHeaded (.unary op operand trailing) = (op == .positive && operand.literalHeaded) := by
  cases operand with
  | number value kind => exact absurd rfl (h value kind)
  | _ => simp only [literalHeaded]

end Node

/-- Whether the text of a node starts like a literal is known from the tree. -/
theorem settled_emit {node : Node} (h : node.WellNamed) (context : Context) :
    Settled (emit context node).text node.literalHeaded := by
  induction node using Node.parts_induction generalizing context with
  | step node ih =>
  have hown := (Node.wellNamed_iff.mp h).1
  have hparts : ∀ part ∈ node.parts, Settled (emit context part).text part.literalHeaded :=
    fun part hp => ih part hp (h.part hp) context
  cases node with
  | number value kind =>
    rw [emit, Node.literalHeaded]
    refine Form.settled_number fun hkind => ?_
    subst hkind
    exact hown
  | accessor property =>
    rw [emit, Node.literalHeaded]
    exact Form.settled_accessor hown
  | chain object elements =>
    rw [emit, Node.literalHeaded, emitElements_eq_map]
    refine Form.settled_chain (hparts object List.mem_cons_self) (List.forall_mem_map.mpr ?_)
    rintro (value | value) -
    · exact Form.head_link (.member (emit context value))
    · exact Form.head_link (.index (emit context value))
  | operator op left right =>
    rw [emit, Node.literalHeaded]
    exact Form.settled_binary op (hparts left (by simp [Node.parts]))
      (hparts right (by simp [Node.parts]))
  | unary op operand trailing =>
    obtain ⟨value, kind, rfl, hemit⟩ | ⟨hoperand, hemit⟩ :=
      emit_unary_cases context op operand trailing
    · rw [hemit, Node.literalHeaded]
      exact Form.settled_conversion kind _
    · rw [hemit, Node.literalHeaded_unary hoperand]
      exact Form.settled_unary (hparts operand List.mem_cons_self)
  | call name args =>
    rw [emit, Node.literalHeaded, emitAll_eq_map]
    have hfirst : ∀ arg ∈ (args.map (emit context)).head?,
        Settled arg.text (Node.firstHeaded args) := by
      cases args with
      | nil => simp
      | cons first rest =>
        intro arg harg
        obtain rfl : emit context first = arg := by simpa using harg
        rw [Node.firstHeaded]
        exact hparts first List.mem_cons_self
    simpa using Form.settled_call hown hfirst
  | loop initial condition afterthought body =>
    rw [Node.literalHeaded]
    cases hcounting : Counting.ofLoop? initial condition afterthought with
    | some counting =>
      rw [emit_counting hcounting]
      exact .other (startsOther_apply (by decide) _)
    | none =>
      rw [emit_general hcounting]
      exact .other (startsOther_append (startsOther_append (startsOther_append
        (startsOther_append (by decide) _) _) _) _)
  | string value =>
    rw [emit, Node.literalHeaded]
    exact .other (startsOther_append (startsOther_append (by decide) _) _)
  | ternary condition left right =>
    rw [emit, Node.literalHeaded]
    exact .other (startsOther_apply (by decide) _)
  | «return» value =>
    rw [emit, Node.literalHeaded, emitOptional_eq_map]
    cases value with
    | none => exact .other (show startsOther "return" by decide)
    | some value => exact .other (startsOther_append (by decide) _)
  | «break» | «continue» | discard =>
    rw [emit, Node.literalHeaded]
    exact .other (by decide)
  | bindings declarators =>
    rw [emit, Node.literalHeaded]
    exact .other (startsOther_append (by decide) _)
  | uniform name type | varying name type =>
    rw [emit, Node.literalHeaded]
    exact .other (startsOther_append (startsOther_append (startsOther_append (by decide) _) _) _)
  | function | unknown =>
    rw [emit, Node.literalHeaded]
    exact .other (show startsOther Script.unknownStatement by decide)
  | conditional condition body alternates =>
    rw [emit, Node.literalHeaded]
    exact .other (startsOther_append (startsOther_apply (by decide) _) _)
  | switch discriminant cases =>
    rw [emit, Node.literalHeaded]
    exact .other (startsOther_append (startsOther_append (startsOther_append
      (startsOther_apply (by decide) _) _) _) _)

/-- So every operator and every index takes the form that the tree tells. -/
theorem formKnown {node : Node} (h : node.WellNamed) : node.FormKnown := by
  have hparts : ∀ part ∈ node.parts, ∀ context,
      startsLiteral (emit context part).text = part.literalHeaded :=
    fun part hp context => (settled_emit (h.part hp) context).eq
  cases node with
  | operator op left right =>
    intro context
    rw [emit, Form.binary, hparts left (by simp [Node.parts]), hparts right (by simp [Node.parts]),
      Form.binaryAs]
  | unary op operand trailing =>
    intro hoperand context name hname
    obtain ⟨value, kind, rfl, -⟩ | ⟨-, hemit⟩ := emit_unary_cases context op operand trailing
    · exact absurd rfl (hoperand value kind)
    · rw [hemit, Form.unary, hname]
      simp only [hparts operand List.mem_cons_self, Form.unaryAs]
  | chain object elements =>
    intro value hvalue context
    have hpart : value ∈ (Node.chain object elements).parts :=
      List.mem_cons_of_mem _ (List.mem_map.mpr ⟨_, hvalue, rfl⟩)
    rw [emitElement, Form.link, hparts value hpart, Form.indexAs]
  | _ => trivial

theorem Node.WellNamed.inner {node inner : Node} (h : node.WellNamed)
    (hinner : node.Contains inner) : inner.WellNamed :=
  fun further hfurther => h further (hinner.trans hfurther)

/-- If names start like names and plain numbers like literals, the test on the text of a node gives
what the tree tells, in every context, and so do the forms of all operators and indices inside. -/
theorem startsLiteral_emit {node : Node} (h : node.WellNamed) :
    (∀ context, startsLiteral (emit context node).text = node.literalHeaded) ∧
      ∀ inner, node.Contains inner → inner.FormKnown :=
  ⟨fun context => (settled_emit h context).eq, fun _ hinner => formKnown (h.inner hinner)⟩

/-- A look-up in a texture whose name starts with a boolean counts as a literal, but its index does
not. -/
theorem startsLiteral_emit_lookup :
    let lookup : Node := .call "texture" [.accessor "trueColors", .accessor "uv"]
    let entry : Node := .chain lookup [.index (.unary .negate (.accessor "k") false)]
    let node : Node := .operator .mul entry (.number "-.5" .float)
    node.WellNamed ∧ (∀ context, startsLiteral (emit context node).text = true) ∧
      node.FormKnown ∧ entry.FormKnown := by
  intro lookup entry node
  have hname (property : String) (h : startsName property) : (Node.accessor property).WellNamed :=
    Node.wellNamed_iff.mpr ⟨h, List.forall_mem_nil _⟩
  have hlookup : lookup.WellNamed := by
    refine Node.wellNamed_iff.mpr ⟨by decide, ?_⟩
    simpa [lookup, Node.parts] using ⟨hname "trueColors" (by decide), hname "uv" (by decide)⟩
  have hindex : (Node.unary .negate (.accessor "k") false).WellNamed :=
    Node.wellNamed_iff.mpr ⟨rfl, by simpa [Node.parts] using hname "k" (by decide)⟩
  have hentry : entry.WellNamed := by
    refine Node.wellNamed_iff.mpr ⟨rfl, ?_⟩
    simpa [entry, Node.parts, Element.value] using ⟨hlookup, hindex⟩
  have hhalf : (Node.number "-.5" .float).WellNamed :=
    Node.wellNamed_iff.mpr ⟨by decide, List.forall_mem_nil _⟩
  have hnode : node.WellNamed :=
    Node.wellNamed_iff.mpr ⟨rfl, by simpa [node, Node.parts] using ⟨hentry, hhalf⟩⟩
  obtain ⟨htext, hforms⟩ := startsLiteral_emit hnode
  refine ⟨hnode, fun context => (htext context).trans (by decide), hforms node .refl, ?_⟩
  exact hforms entry (.single (by simp [node, Node.parts]))

end ShaderScript
