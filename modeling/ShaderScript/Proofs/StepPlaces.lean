import ShaderScript.Proofs.TwinTexts

/-!
# Places of steps

A step (`++`, `--`) that trails its operand has the value of the operand before the step, and one
that leads it the value after. Here a single trailing step of a tree, in whatever place of it, is
turned into a leading one, and the place is described: whether the value is used there, and whether
the place is part of a declaration. The fragments of the two trees are twins.
-/

namespace ShaderScript

/-- The place of a node in a tree. -/
structure StepPlace where
  /-- The value of the node is used. -/
  used : Bool
  /-- The node is part of the value of a declared variable. -/
  declared : Bool
deriving DecidableEq

namespace StepPlace

/-- A part of the node whose value the node uses. -/
def value (place : StepPlace) : StepPlace :=
  { place with used := true }

/-- A statement inside the node, or the afterthought of a loop. -/
def statement (place : StepPlace) : StepPlace :=
  { place with used := false }

/-- The value of a declared variable. -/
def declarator : StepPlace :=
  ⟨true, true⟩

end StepPlace

/-- One trailing step of a node, which stands in the given place of the tree and is written with it,
is turned into a leading one. The next argument is the place of the node itself. -/
inductive Turned (op : UnaryOp) (operand : Node) (place : StepPlace) :
    StepPlace → Node → Node → Prop
  | here (hstep : op.isStep) (hoperand : operand.kind ≠ .number) :
    Turned op operand place place (.unary op operand true) (.unary op operand false)
  | object {spot : StepPlace} {node node' : Node} (elements : List (Element Node))
    (h : Turned op operand place spot.value node node') :
    Turned op operand place spot (.chain node elements) (.chain node' elements)
  | member {spot : StepPlace} {node node' : Node} (object : Node)
    (before after : List (Element Node)) (h : Turned op operand place spot.value node node') :
    Turned op operand place spot (.chain object (before ++ .member node :: after))
      (.chain object (before ++ .member node' :: after))
  | index {spot : StepPlace} {node node' : Node} (object : Node)
    (before after : List (Element Node)) (h : Turned op operand place spot.value node node') :
    Turned op operand place spot (.chain object (before ++ .index node :: after))
      (.chain object (before ++ .index node' :: after))
  | left {spot : StepPlace} {node node' : Node} (other : BinaryOp) (right : Node)
    (h : Turned op operand place spot.value node node') :
    Turned op operand place spot (.operator other node right) (.operator other node' right)
  | right {spot : StepPlace} {node node' : Node} (other : BinaryOp) (left : Node)
    (h : Turned op operand place spot.value node node') :
    Turned op operand place spot (.operator other left node) (.operator other left node')
  | operand {spot : StepPlace} {node node' : Node} (other : UnaryOp) (trailing : Bool)
    (h : Turned op operand place spot.value node node') :
    Turned op operand place spot (.unary other node trailing) (.unary other node' trailing)
  | selector {spot : StepPlace} {node node' : Node} (left right : Node)
    (h : Turned op operand place spot.value node node') :
    Turned op operand place spot (.ternary node left right) (.ternary node' left right)
  | whenTrue {spot : StepPlace} {node node' : Node} (condition right : Node)
    (h : Turned op operand place spot.value node node') :
    Turned op operand place spot (.ternary condition node right) (.ternary condition node' right)
  | whenFalse {spot : StepPlace} {node node' : Node} (condition left : Node)
    (h : Turned op operand place spot.value node node') :
    Turned op operand place spot (.ternary condition left node) (.ternary condition left node')
  | argument {spot : StepPlace} {node node' : Node} {name : String} {before after : List Node}
    (hshown : before.length ∈ shownArgs name (List.range (before.length + (after.length + 1))))
    (h : Turned op operand place spot.value node node') :
    Turned op operand place spot (.call name (before ++ node :: after))
      (.call name (before ++ node' :: after))
  | returned {spot : StepPlace} {node node' : Node}
    (h : Turned op operand place spot.value node node') :
    Turned op operand place spot (.return (some node)) (.return (some node'))
  | declarator {spot : StepPlace} {node node' : Node} (name type : String) (mutable : Bool)
    (before after : List (Declarator Node)) (h : Turned op operand place .declarator node node') :
    Turned op operand place spot (.bindings (before ++ ⟨name, type, some node, mutable⟩ :: after))
      (.bindings (before ++ ⟨name, type, some node', mutable⟩ :: after))
  | test {spot : StepPlace} {node node' : Node} (body : List Node)
    (alternates : List (Branch Node)) (h : Turned op operand place spot.value node node') :
    Turned op operand place spot (.conditional node body alternates)
      (.conditional node' body alternates)
  | consequence {spot : StepPlace} {node node' : Node} (condition : Node) (front back : List Node)
    (alternates : List (Branch Node)) (h : Turned op operand place spot.statement node node') :
    Turned op operand place spot (.conditional condition (front ++ node :: back) alternates)
      (.conditional condition (front ++ node' :: back) alternates)
  | alternateTest {spot : StepPlace} {node node' : Node} (condition : Node) (body : List Node)
    (before after : List (Branch Node)) (nodes : List Node)
    (h : Turned op operand place spot.value node node') :
    Turned op operand place spot
      (.conditional condition body (before ++ ⟨some node, nodes⟩ :: after))
      (.conditional condition body (before ++ ⟨some node', nodes⟩ :: after))
  | alternateBody {spot : StepPlace} {node node' : Node} (condition : Node) (body : List Node)
    (before after : List (Branch Node)) (test : Option Node) (front back : List Node)
    (h : Turned op operand place spot.statement node node') :
    Turned op operand place spot
      (.conditional condition body (before ++ ⟨test, front ++ node :: back⟩ :: after))
      (.conditional condition body (before ++ ⟨test, front ++ node' :: back⟩ :: after))
  | discriminant {spot : StepPlace} {node node' : Node} (cases : List (Branch Node))
    (h : Turned op operand place spot.value node node') :
    Turned op operand place spot (.switch node cases) (.switch node' cases)
  | caseLabel {spot : StepPlace} {node node' : Node} (discriminant : Node)
    (before after : List (Branch Node)) (nodes : List Node)
    (h : Turned op operand place spot.value node node') :
    Turned op operand place spot (.switch discriminant (before ++ ⟨some node, nodes⟩ :: after))
      (.switch discriminant (before ++ ⟨some node', nodes⟩ :: after))
  | caseBody {spot : StepPlace} {node node' : Node} (discriminant : Node)
    (before after : List (Branch Node)) (label : Option Node) (front back : List Node)
    (h : Turned op operand place spot.statement node node') :
    Turned op operand place spot
      (.switch discriminant (before ++ ⟨label, front ++ node :: back⟩ :: after))
      (.switch discriminant (before ++ ⟨label, front ++ node' :: back⟩ :: after))
  /-- The counter of a loop that counts is not written as a declared variable. -/
  | start {spot : StepPlace} {node node' : Node} {name type : String} {mutable : Bool}
    {condition afterthought : Option Node} (body : List Node)
    (hcounts : (Counting.ofLoop? (some (.bindings [⟨name, type, some node, mutable⟩])) condition
      afterthought).isSome)
    (h : Turned op operand place spot.value node node') :
    Turned op operand place spot
      (.loop (some (.bindings [⟨name, type, some node, mutable⟩])) condition afterthought body)
      (.loop (some (.bindings [⟨name, type, some node', mutable⟩])) condition afterthought body)
  | limit {spot : StepPlace} {node node' counter : Node} {comparison : BinaryOp}
    {initial afterthought : Option Node} (body : List Node)
    (hcounts : (Counting.ofLoop? initial (some (.operator comparison counter node))
      afterthought).isSome)
    (h : Turned op operand place spot.value node node') :
    Turned op operand place spot
      (.loop initial (some (.operator comparison counter node)) afterthought body)
      (.loop initial (some (.operator comparison counter node')) afterthought body)
  | initial {spot : StepPlace} {node node' : Node} {condition afterthought : Option Node}
    (body : List Node) (hgeneral : Counting.ofLoop? (some node) condition afterthought = none)
    (h : Turned op operand place spot.statement node node') :
    Turned op operand place spot (.loop (some node) condition afterthought body)
      (.loop (some node') condition afterthought body)
  | condition {spot : StepPlace} {node node' : Node} {initial afterthought : Option Node}
    (body : List Node) (hgeneral : Counting.ofLoop? initial (some node) afterthought = none)
    (h : Turned op operand place spot.value node node') :
    Turned op operand place spot (.loop initial (some node) afterthought body)
      (.loop initial (some node') afterthought body)
  /-- The step that a loop counts by is not written as a step. -/
  | afterthought {spot : StepPlace} {node node' : Node} {initial condition : Option Node}
    (body : List Node)
    (hshown : Counting.ofLoop? initial condition (some node) = none ∨ node.kind = .operator)
    (h : Turned op operand place spot.statement node node') :
    Turned op operand place spot (.loop initial condition (some node) body)
      (.loop initial condition (some node') body)
  | body {spot : StepPlace} {node node' : Node} (initial condition afterthought : Option Node)
    (front back : List Node) (h : Turned op operand place spot.statement node node') :
    Turned op operand place spot (.loop initial condition afterthought (front ++ node :: back))
      (.loop initial condition afterthought (front ++ node' :: back))

namespace Turned

variable {op : UnaryOp} {operand node node' : Node} {place spot : StepPlace}

theorem kind_eq (h : Turned op operand place spot node node') : node'.kind = node.kind := by
  cases h <;> rfl

theorem kind_ne (h : Turned op operand place spot node node') {kind : Kind}
    (hkind : kind ∈ [Kind.number, .accessor, .break, .function]) : node.kind ≠ kind := by
  intro heq
  rw [← heq] at hkind
  cases h <;> simp [Node.kind] at hkind

theorem isCallOf_eq (h : Turned op operand place spot node node') (name : String) :
    node'.isCallOf name = node.isCallOf name := by
  cases h <;> rfl

theorem isStep (h : Turned op operand place spot node node') :
    op.isStep ∧ operand.kind ≠ .number := by
  induction h with
  | here hstep hoperand => exact ⟨hstep, hoperand⟩
  | _ => assumption

end Turned

/-! ## Loops that count -/

namespace Counting

theorem isAssignment_of_isPlainStep {op : BinaryOp} {amount : Node}
    (h : isPlainStep op amount) : op.isAssignment := by
  cases op <;> first | rfl | simp [isPlainStep] at h

theorem Steps.update?_eq {counter : String} {last : Node} {update : Update Node}
    (h : Steps counter last update) : update? counter last = some update := by
  cases h with
  | increment | decrement => simp [update?]
  | step hplain => simp [update?, isAssignment_of_isPlainStep hplain, hplain]
  | assign hassignment hplain => simp [update?, hassignment, hplain]

theorem exists_steps_operator (counter : String) {op : BinaryOp} (amount : Node)
    (h : op.isAssignment) :
    ∃ update, Steps counter (.operator op (.accessor counter) amount) update := by
  cases hplain : isPlainStep op amount with
  | false => exact ⟨_, .assign h hplain⟩
  | true => exact ⟨_, .step hplain⟩

theorem ofLoop?_eq_some_iff {initial condition afterthought : Option Node}
    {counting : Counting Node} :
    ofLoop? initial condition afterthought = some counting ↔ ∃ mutable last,
      initial = some (.bindings [⟨counting.name, counting.type, some counting.start, mutable⟩]) ∧
      condition = some (.operator counting.comparison (.accessor counting.name) counting.limit) ∧
      counting.comparison.isComparison ∧
      afterthought = some last ∧ Steps counting.name last counting.update := by
  refine ⟨shape_of_ofLoop?, ?_⟩
  rintro ⟨mutable, last, rfl, rfl, hcomparison, rfl, hsteps⟩
  simp [ofLoop?, Node.singleDeclarator?, comparison?, hcomparison, hsteps.update?_eq]

variable {initial condition afterthought : Option Node} {counting : Counting Node}

/-- Another start does not keep the loop from counting. -/
theorem ofLoop?_start {name type : String} {start : Node} {mutable : Bool}
    (h : ofLoop? (some (.bindings [⟨name, type, some start, mutable⟩])) condition afterthought =
      some counting) (start' : Node) :
    ofLoop? (some (.bindings [⟨name, type, some start', mutable⟩])) condition afterthought =
      some { counting with start := start' } ∧ counting.start = start := by
  obtain ⟨_, last, hinitial, hrest⟩ := ofLoop?_eq_some_iff.mp h
  simp only [Option.some.injEq, Node.bindings.injEq, List.cons.injEq, Declarator.mk.injEq,
    and_true] at hinitial
  obtain ⟨rfl, rfl, rfl, rfl⟩ := hinitial
  exact ⟨ofLoop?_eq_some_iff.mpr ⟨_, last, rfl, hrest⟩, rfl⟩

theorem ofLoop?_limit {comparison : BinaryOp} {counter limit : Node}
    (h : ofLoop? initial (some (.operator comparison counter limit)) afterthought = some counting)
    (limit' : Node) :
    ofLoop? initial (some (.operator comparison counter limit')) afterthought =
      some { counting with limit := limit' } ∧ counting.limit = limit := by
  obtain ⟨mutable, last, hinitial, hcondition, hrest⟩ := ofLoop?_eq_some_iff.mp h
  simp only [Option.some.injEq, Node.operator.injEq] at hcondition
  obtain ⟨rfl, rfl, rfl⟩ := hcondition
  exact ⟨ofLoop?_eq_some_iff.mpr ⟨mutable, last, hinitial, rfl, hrest⟩, rfl⟩

end Counting

namespace Turned

variable {op : UnaryOp} {operand node node' : Node} {place spot : StepPlace}

theorem of_single_declarator {name type : String} {value' : Node} {mutable : Bool}
    (h : Turned op operand place spot node (.bindings [⟨name, type, some value', mutable⟩])) :
    ∃ value, node = .bindings [⟨name, type, some value, mutable⟩] := by
  generalize heq : Node.bindings [⟨name, type, some value', mutable⟩] = node' at h
  cases h with
  | @declarator _ value _ _ _ _ before after h =>
    rw [Node.bindings.injEq, eq_comm, List.append_eq_singleton_iff] at heq
    obtain ⟨rfl, hlast⟩ | ⟨-, hlast⟩ := heq
    · cases hlast
      exact ⟨value, rfl⟩
    · cases hlast
  | _ => cases heq

theorem of_comparison {other : BinaryOp} {name : String} {right' : Node}
    (h : Turned op operand place spot node (.operator other (.accessor name) right')) :
    ∃ right, node = .operator other (.accessor name) right ∧
      Turned op operand place spot.value right right' := by
  cases h with
  | left _ _ h => exact nomatch h
  | right _ _ h => exact ⟨_, rfl, h⟩

theorem exists_steps {counter : String} {update' : Update Node}
    (h : Turned op operand place spot node node') (hsteps : Counting.Steps counter node' update') :
    ∃ update, Counting.Steps counter node update := by
  cases hsteps with
  | increment =>
    cases h with
    | here => exact ⟨_, .increment true⟩
    | operand _ _ h => exact nomatch h
  | decrement =>
    cases h with
    | here => exact ⟨_, .decrement true⟩
    | operand _ _ h => exact nomatch h
  | step hplain =>
    obtain ⟨amount, rfl, -⟩ := h.of_comparison
    exact Counting.exists_steps_operator counter amount
      (Counting.isAssignment_of_isPlainStep hplain)
  | assign hassignment =>
    obtain ⟨amount, rfl, -⟩ := h.of_comparison
    exact Counting.exists_steps_operator counter amount hassignment

/-- A loop that does not count does not start to. -/
theorem ofLoop?_initial {condition afterthought : Option Node}
    (h : Turned op operand place spot node node')
    (hgeneral : Counting.ofLoop? (some node) condition afterthought = none) :
    Counting.ofLoop? (some node') condition afterthought = none := by
  refine Option.eq_none_iff_forall_ne_some.mpr fun counting hcounting => ?_
  obtain ⟨mutable, last, hinitial, hrest⟩ := Counting.ofLoop?_eq_some_iff.mp hcounting
  cases hinitial
  obtain ⟨start, rfl⟩ := h.of_single_declarator
  have hcounts : Counting.ofLoop? _ condition afterthought =
      some { counting with start := start } :=
    Counting.ofLoop?_eq_some_iff.mpr ⟨mutable, last, rfl, hrest⟩
  rw [hgeneral] at hcounts
  cases hcounts

theorem ofLoop?_condition {initial afterthought : Option Node}
    (h : Turned op operand place spot node node')
    (hgeneral : Counting.ofLoop? initial (some node) afterthought = none) :
    Counting.ofLoop? initial (some node') afterthought = none := by
  refine Option.eq_none_iff_forall_ne_some.mpr fun counting hcounting => ?_
  obtain ⟨mutable, last, hinitial, hcondition, hrest⟩ := Counting.ofLoop?_eq_some_iff.mp hcounting
  cases hcondition
  obtain ⟨limit, rfl, -⟩ := h.of_comparison
  have hcounts : Counting.ofLoop? initial _ afterthought =
      some { counting with limit := limit } :=
    Counting.ofLoop?_eq_some_iff.mpr ⟨mutable, last, hinitial, rfl, hrest⟩
  rw [hgeneral] at hcounts
  cases hcounts

theorem ofLoop?_afterthought {initial condition : Option Node}
    (h : Turned op operand place spot node node')
    (hgeneral : Counting.ofLoop? initial condition (some node) = none) :
    Counting.ofLoop? initial condition (some node') = none := by
  refine Option.eq_none_iff_forall_ne_some.mpr fun counting hcounting => ?_
  obtain ⟨mutable, last, hinitial, hcondition, hcomparison, hlast, hsteps⟩ :=
    Counting.ofLoop?_eq_some_iff.mp hcounting
  cases hlast
  obtain ⟨update, hsteps⟩ := h.exists_steps hsteps
  have hcounts : Counting.ofLoop? initial condition (some node) =
      some { counting with update := update } :=
    Counting.ofLoop?_eq_some_iff.mpr
      ⟨mutable, node, hinitial, hcondition, hcomparison, rfl, hsteps⟩
  rw [hgeneral] at hcounts
  cases hcounts

/-- An assignment to the counter stays one. -/
theorem steps_assign {counter : String} {update : Update Node}
    (h : Turned op operand place spot node node') (hkind : node.kind = .operator)
    (hsteps : Counting.Steps counter node update) :
    update = .assign node ∧ Counting.Steps counter node' (.assign node') := by
  have hplain : ∀ {other : BinaryOp} {amount amount' : Node},
      Turned op operand place spot.value amount amount' →
        Counting.isPlainStep other amount = false ∧
          Counting.isPlainStep other amount' = false := by
    intro other amount amount' h
    cases h <;> exact ⟨Bool.and_false _, Bool.and_false _⟩
  cases hsteps with
  | increment | decrement => cases hkind
  | step hstep =>
    cases h with
    | left _ _ h => exact nomatch h
    | right _ _ h =>
      rw [(hplain h).1] at hstep
      cases hstep
  | assign hassignment =>
    cases h with
    | left _ _ h => exact nomatch h
    | right _ _ h => exact ⟨rfl, .assign hassignment (hplain h).2⟩

theorem ofLoop?_assign {initial condition : Option Node} {counting : Counting Node}
    (h : Turned op operand place spot node node') (hkind : node.kind = .operator)
    (hcounting : Counting.ofLoop? initial condition (some node) = some counting) :
    Counting.ofLoop? initial condition (some node') =
      some { counting with update := .assign node' } ∧ counting.update = .assign node := by
  obtain ⟨mutable, last, hinitial, hcondition, hcomparison, hlast, hsteps⟩ :=
    Counting.ofLoop?_eq_some_iff.mp hcounting
  cases hlast
  obtain ⟨hupdate, hsteps'⟩ := h.steps_assign hkind hsteps
  exact ⟨Counting.ofLoop?_eq_some_iff.mpr
    ⟨mutable, node', hinitial, hcondition, hcomparison, rfl, hsteps'⟩, hupdate⟩

end Turned

end ShaderScript
