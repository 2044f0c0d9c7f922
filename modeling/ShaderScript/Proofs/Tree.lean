import Mathlib.Logic.Relation
import ShaderScript.Node.Basic

/-!
# The parts of a node

Every fact about all nodes is proved by one induction: a node has it as soon as the nodes directly
inside it have it. What lies further inside is then a chain of such steps. The bodies of functions
are parts like any other; `openParts` leaves them out, which is what the generator does with a
function that is not at the top level.
-/

namespace ShaderScript

namespace Element

def value {ν : Type} : Element ν → ν
  | .member value => value
  | .index value => value

end Element

namespace Branch

/-- The nodes directly inside a branch. -/
def parts {ν : Type} (branch : Branch ν) : List ν :=
  branch.condition.toList ++ branch.body

end Branch

namespace Node

/-- The nodes directly inside a node. -/
def parts : Node → List Node
  | .number .. | .string _ | .accessor _ | .break | .continue | .discard | .uniform .. | .varying ..
  | .unknown => []
  | .chain object elements => object :: elements.map Element.value
  | .operator _ left right => [left, right]
  | .unary _ operand _ => [operand]
  | .ternary condition left right => [condition, left, right]
  | .call _ args => args
  | .return value => value.toList
  | .bindings declarators => declarators.filterMap Declarator.value
  | .function declaration => declaration.body
  | .conditional condition body alternates =>
    condition :: (body ++ alternates.flatMap Branch.parts)
  | .switch discriminant cases => discriminant :: cases.flatMap Branch.parts
  | .loop initial condition afterthought body =>
    initial.toList ++ condition.toList ++ afterthought.toList ++ body

/-- The nodes directly inside a node that is not a function. -/
def openParts : Node → List Node
  | .function _ => []
  | node => node.parts

theorem sizeOf_element_value (element : Element Node) : sizeOf element.value < sizeOf element := by
  cases element <;> simp [Element.value]

theorem sizeOf_of_mem_toList {part : Option Node} {node : Node} (h : node ∈ part.toList) :
    sizeOf node < sizeOf part := by
  obtain rfl : part = some node := Option.mem_toList.mp h
  simp

theorem sizeOf_branch_part {branch : Branch Node} {node : Node} (h : node ∈ branch.parts) :
    sizeOf node < sizeOf branch := by
  obtain ⟨condition, body⟩ := branch
  rw [Branch.mk.sizeOf_spec]
  rcases List.mem_append.mp h with hc | hb
  · have hc : sizeOf node < sizeOf condition := sizeOf_of_mem_toList hc
    omega
  · have hb : sizeOf node < sizeOf body := List.sizeOf_lt_of_mem hb
    omega

theorem sizeOf_of_mem_branches {branches : List (Branch Node)} {node : Node}
    (h : node ∈ branches.flatMap Branch.parts) : sizeOf node < sizeOf branches := by
  obtain ⟨branch, hb, hn⟩ := List.mem_flatMap.mp h
  exact Nat.lt_trans (sizeOf_branch_part hn) (List.sizeOf_lt_of_mem hb)

theorem sizeOf_declarator_value {declarator : Declarator Node} {node : Node}
    (h : declarator.value = some node) : sizeOf node < sizeOf declarator := by
  obtain ⟨name, type, value, mutable⟩ := declarator
  obtain rfl : value = some node := h
  simp only [Declarator.mk.sizeOf_spec, Option.some.sizeOf_spec]
  omega

/-- A part is smaller than its node, which bounds every descent into the tree. -/
theorem sizeOf_part {node part : Node} (h : part ∈ node.parts) : sizeOf part < sizeOf node := by
  cases node with
  | number | string | accessor | «break» | «continue» | discard | uniform | varying | unknown =>
    simp [parts] at h
  | chain object elements =>
    rw [chain.sizeOf_spec]
    rcases List.mem_cons.mp h with rfl | h
    · omega
    · obtain ⟨element, he, rfl⟩ := List.mem_map.mp h
      have hv := sizeOf_element_value element
      have hm := List.sizeOf_lt_of_mem he
      omega
  | operator op left right =>
    rw [operator.sizeOf_spec]
    simp only [parts, List.mem_cons, List.not_mem_nil, or_false] at h
    rcases h with rfl | rfl <;> omega
  | unary op operand trailing =>
    obtain rfl := List.mem_singleton.mp h
    rw [unary.sizeOf_spec]
    omega
  | ternary condition left right =>
    rw [ternary.sizeOf_spec]
    simp only [parts, List.mem_cons, List.not_mem_nil, or_false] at h
    rcases h with rfl | rfl | rfl <;> omega
  | call name args =>
    have hm : sizeOf part < sizeOf args := List.sizeOf_lt_of_mem h
    rw [call.sizeOf_spec]
    omega
  | «return» value =>
    have hm : sizeOf part < sizeOf value := sizeOf_of_mem_toList h
    rw [return.sizeOf_spec]
    omega
  | bindings declarators =>
    obtain ⟨declarator, hd, hv⟩ := List.mem_filterMap.mp h
    have hs := sizeOf_declarator_value hv
    have hm := List.sizeOf_lt_of_mem hd
    rw [bindings.sizeOf_spec]
    omega
  | function declaration =>
    obtain ⟨name, type, params, body, layout⟩ := declaration
    have hm : sizeOf part < sizeOf body := List.sizeOf_lt_of_mem h
    rw [function.sizeOf_spec, FunctionDecl.mk.sizeOf_spec]
    omega
  | conditional condition body alternates =>
    rw [conditional.sizeOf_spec]
    rcases List.mem_cons.mp h with rfl | h
    · omega
    · rcases List.mem_append.mp h with hb | ha
      · have hb := List.sizeOf_lt_of_mem hb
        omega
      · have ha := sizeOf_of_mem_branches ha
        omega
  | switch discriminant cases =>
    rw [switch.sizeOf_spec]
    rcases List.mem_cons.mp h with rfl | h
    · omega
    · have hc := sizeOf_of_mem_branches h
      omega
  | loop initial condition afterthought body =>
    rw [loop.sizeOf_spec]
    simp only [parts, List.mem_append] at h
    rcases h with ((h | h) | h) | h
    · have := sizeOf_of_mem_toList h
      omega
    · have := sizeOf_of_mem_toList h
      omega
    · have := sizeOf_of_mem_toList h
      omega
    · have := List.sizeOf_lt_of_mem h
      omega

/-- A fact holds of every node if it passes from the parts of a node to the node. -/
@[elab_as_elim]
theorem parts_induction {motive : Node → Prop}
    (step : ∀ node, (∀ part ∈ node.parts, motive part) → motive node) (node : Node) :
    motive node :=
  step node fun part h =>
    have := sizeOf_part h
    parts_induction step part
termination_by sizeOf node

/-- The same, where the parts of the parts are needed as well: those of a counting loop's header are
emitted one by one. -/
@[elab_as_elim]
theorem parts_induction₂ {motive : Node → Prop}
    (step : ∀ node,
      (∀ part ∈ node.parts, motive part ∧ ∀ inner ∈ part.parts, motive inner) → motive node)
    (node : Node) : motive node := by
  have h : motive node ∧ ∀ part ∈ node.parts, motive part := by
    induction node using parts_induction with
    | step node ih => exact ⟨step node ih, fun part hp => (ih part hp).1⟩
  exact h.1

end Node

/-! ## Strings -/

/-- The strings of a function outside its body. -/
def FunctionDecl.strings {ν : Type} (declaration : FunctionDecl ν) : List String :=
  declaration.name :: declaration.type ::
    declaration.params.flatMap fun parameter => [parameter.name, parameter.type]

namespace Node

/-- The names, types and texts that a node has besides those of its parts. -/
def ownStrings : Node → List String
  | .number value _ => [value]
  | .string value => [value]
  | .accessor property => [property]
  | .call name _ => [name]
  | .bindings declarators => declarators.flatMap fun declarator => [declarator.name, declarator.type]
  | .uniform name type | .varying name type => [name, type]
  | .function declaration => declaration.strings
  | .chain .. | .operator .. | .unary .. | .ternary .. | .return _ | .break | .continue | .discard
  | .conditional .. | .switch .. | .loop .. | .unknown => []

/-- The strings of a node: its own ones, and those of the nodes inside it. -/
def strings (node : Node) : List String :=
  node.ownStrings ++ node.parts.attach.flatMap fun ⟨part, _⟩ => part.strings
termination_by sizeOf node
decreasing_by exact sizeOf_part (by assumption)

theorem mem_strings {node : Node} {text : String} :
    text ∈ node.strings ↔ text ∈ node.ownStrings ∨ ∃ part ∈ node.parts, text ∈ part.strings := by
  rw [strings, List.mem_append, List.mem_flatMap]
  simp

end Node

/-- All strings of a program. -/
def Program.strings (program : Program) : List String :=
  program.body.flatMap Node.strings

end ShaderScript
