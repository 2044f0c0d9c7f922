import Mathlib.Tactic.SplitIfs
import ShaderScript.Proofs.Emission

/-!
# Breaks and their places

A break leaves the loop or the switch around it. Whether it has to be written depends on its place:
what it leaves, and whether it is the last statement of a case, which is left there anyway. To say
that a break is written, it is compared with a call of the same name, which a body never leaves out:
`spell` puts calls in the place of the breaks that a rule chooses. The bodies of functions that are
not at the top level are left alone, as the generator does.
-/

namespace ShaderScript

namespace Breaks

/-- What a break can leave. -/
inductive Enclosure where
  | loop
  | switch
deriving DecidableEq

/-- Where a break stands. -/
structure Place where
  /-- The innermost loop or switch that holds the break in its body or in its cases. -/
  enclosure : Option Enclosure
  /-- The break is the last statement of a case. -/
  closing : Bool
deriving DecidableEq

/-- Statements that stand together. -/
structure Block where
  enclosure : Option Enclosure
  /-- The statements are those of a case. -/
  isCase : Bool
  statements : List Node

/-- Statements, each with whether it is the last one of a case. -/
def marked (isCase : Bool) : List Node → List (Bool × Node)
  | [] => []
  | node :: rest => (isCase && rest.isEmpty, node) :: marked isCase rest

theorem map_snd_marked (isCase : Bool) (nodes : List Node) :
    (marked isCase nodes).map Prod.snd = nodes := by
  induction nodes with
  | nil => rfl
  | cons node rest ih => simp [marked, ih]

/-- The statements of the block, each with whether it is the last one of a case. -/
def Block.marked (block : Block) : List (Bool × Node) :=
  Breaks.marked block.isCase block.statements

/-- The nodes directly inside a node that are not statements of it, with what is around them. The
header of a loop and the discriminant of a switch are outside. -/
def operands (enclosure : Option Enclosure) : Node → List (Option Enclosure × Node)
  | .function _ => []
  | .conditional condition _ alternates =>
    (condition :: alternates.filterMap Branch.condition).map (Prod.mk enclosure)
  | .switch discriminant cases =>
    (enclosure, discriminant) ::
      (cases.filterMap Branch.condition).map (Prod.mk (some Enclosure.switch))
  | .loop initial condition afterthought _ =>
    (initial.toList ++ condition.toList ++ afterthought.toList).map (Prod.mk enclosure)
  | node => node.parts.map (Prod.mk enclosure)

/-- The bodies of a node. -/
def blocks (enclosure : Option Enclosure) : Node → List Block
  | .conditional _ body alternates =>
    (body :: alternates.map Branch.body).map (Block.mk enclosure false)
  | .switch _ cases => (cases.map Branch.body).map (Block.mk (some .switch) true)
  | .loop _ _ _ body => [⟨some .loop, false, body⟩]
  | _ => []

/-- A statement inside the node is a break in the given place. -/
inductive Occurs : Option Enclosure → Node → Place → Prop
  | operand {enclosure inner : Option Enclosure} {node part : Node} {place : Place}
    (hpart : (inner, part) ∈ operands enclosure node) (h : Occurs inner part place) :
    Occurs enclosure node place
  | statement {enclosure : Option Enclosure} {node : Node} {block : Block} {closing : Bool}
    (hblock : block ∈ blocks enclosure node) (h : (closing, .break) ∈ block.marked) :
    Occurs enclosure node ⟨block.enclosure, closing⟩
  | nested {enclosure : Option Enclosure} {node statement : Node} {block : Block} {place : Place}
    (hblock : block ∈ blocks enclosure node) (hstatement : statement ∈ block.statements)
    (h : Occurs block.enclosure statement place) : Occurs enclosure node place

/-- The same for the statements of a block. -/
def Block.Has (block : Block) (place : Place) : Prop :=
  (place.enclosure = block.enclosure ∧ (place.closing, .break) ∈ block.marked) ∨
    ∃ statement ∈ block.statements, Occurs block.enclosure statement place

/-- The break as a call. -/
def call : Node :=
  .call "Break" []

/-! ## Writing breaks as calls -/

section Spelling

variable (rule : Place → Bool)

mutual

/-- The node with the breaks inside it that the rule chooses written as calls. -/
def spell (enclosure : Option Enclosure) : Node → Node
  | .chain object elements => .chain (spell enclosure object) (spellElements enclosure elements)
  | .operator op left right => .operator op (spell enclosure left) (spell enclosure right)
  | .unary op operand trailing => .unary op (spell enclosure operand) trailing
  | .ternary condition left right =>
    .ternary (spell enclosure condition) (spell enclosure left) (spell enclosure right)
  | .call name args => .call name (spellAll enclosure args)
  | .return value => .return (spellOptional enclosure value)
  | .bindings declarators => .bindings (spellDeclarators enclosure declarators)
  | .conditional condition body alternates =>
    .conditional (spell enclosure condition) (spellBody enclosure false body)
      (spellBranches enclosure false alternates)
  | .switch discriminant cases =>
    .switch (spell enclosure discriminant) (spellBranches (some .switch) true cases)
  | .loop initial condition afterthought body =>
    .loop (spellOptional enclosure initial) (spellOptional enclosure condition)
      (spellOptional enclosure afterthought) (spellBody (some .loop) false body)
  | node => node

def spellOptional (enclosure : Option Enclosure) : Option Node → Option Node
  | none => none
  | some node => some (spell enclosure node)

def spellAll (enclosure : Option Enclosure) : List Node → List Node
  | [] => []
  | node :: nodes => spell enclosure node :: spellAll enclosure nodes

def spellElements (enclosure : Option Enclosure) : List (Element Node) → List (Element Node)
  | [] => []
  | .member value :: elements =>
    .member (spell enclosure value) :: spellElements enclosure elements
  | .index value :: elements => .index (spell enclosure value) :: spellElements enclosure elements

def spellDeclarators (enclosure : Option Enclosure) :
    List (Declarator Node) → List (Declarator Node)
  | [] => []
  | ⟨name, type, value, mutable⟩ :: declarators =>
    ⟨name, type, spellOptional enclosure value, mutable⟩ :: spellDeclarators enclosure declarators

/-- The statements of a body, where the breaks among them can be chosen as well. -/
def spellBody (enclosure : Option Enclosure) (isCase : Bool) : List Node → List Node
  | [] => []
  | node :: rest =>
    (if node.kind = .break ∧ rule ⟨enclosure, isCase && rest.isEmpty⟩ then call
      else spell enclosure node) :: spellBody enclosure isCase rest

def spellBranches (enclosure : Option Enclosure) (isCase : Bool) :
    List (Branch Node) → List (Branch Node)
  | [] => []
  | ⟨condition, body⟩ :: branches =>
    ⟨spellOptional enclosure condition, spellBody enclosure isCase body⟩ ::
      spellBranches enclosure isCase branches

end

/-- A statement, as the last one of a case or not. -/
def spellStatement (enclosure : Option Enclosure) (closing : Bool) (node : Node) : Node :=
  if node.kind = .break ∧ rule ⟨enclosure, closing⟩ then call else spell rule enclosure node

/-- A link of a chain. -/
def spellElement (enclosure : Option Enclosure) : Element Node → Element Node
  | .member value => .member (spell rule enclosure value)
  | .index value => .index (spell rule enclosure value)

def spellDeclarator (enclosure : Option Enclosure) (declarator : Declarator Node) :
    Declarator Node :=
  { declarator with value := declarator.value.map (spell rule enclosure) }

def spellBranch (enclosure : Option Enclosure) (isCase : Bool) (branch : Branch Node) :
    Branch Node :=
  ⟨branch.condition.map (spell rule enclosure), spellBody rule enclosure isCase branch.body⟩

variable (enclosure : Option Enclosure)

@[simp]
theorem spellOptional_eq_map (node : Option Node) :
    spellOptional rule enclosure node = node.map (spell rule enclosure) := by
  cases node <;> simp [spellOptional]

@[simp]
theorem spellAll_eq_map (nodes : List Node) :
    spellAll rule enclosure nodes = nodes.map (spell rule enclosure) := by
  induction nodes with
  | nil => simp [spellAll]
  | cons node nodes ih => simp [spellAll, ih]

@[simp]
theorem spellElements_eq_map (elements : List (Element Node)) :
    spellElements rule enclosure elements = elements.map (spellElement rule enclosure) := by
  induction elements with
  | nil => simp [spellElements]
  | cons element elements ih => cases element <;> simp [spellElements, spellElement, ih]

@[simp]
theorem spellDeclarators_eq_map (declarators : List (Declarator Node)) :
    spellDeclarators rule enclosure declarators =
      declarators.map (spellDeclarator rule enclosure) := by
  induction declarators with
  | nil => simp [spellDeclarators]
  | cons declarator declarators ih => simp [spellDeclarators, spellDeclarator, ih]

theorem spellBody_eq_map (isCase : Bool) (nodes : List Node) :
    spellBody rule enclosure isCase nodes =
      (marked isCase nodes).map fun (closing, node) =>
        spellStatement rule enclosure closing node := by
  induction nodes with
  | nil => simp [spellBody, marked]
  | cons node rest ih => simp [spellBody, marked, spellStatement, ih]

@[simp]
theorem spellBranches_eq_map (isCase : Bool) (branches : List (Branch Node)) :
    spellBranches rule enclosure isCase branches =
      branches.map (spellBranch rule enclosure isCase) := by
  induction branches with
  | nil => simp [spellBranches]
  | cons branch branches ih => simp [spellBranches, spellBranch, ih]

/-- Only breaks among the statements of a body change their kind. -/
theorem kind_spell (node : Node) : (spell rule enclosure node).kind = node.kind := by
  cases node <;> simp [spell, Node.kind]

/-- A top-level statement. Nothing is around the body of a function. -/
def spellRoot : Node → Node
  | .function declaration =>
    .function { declaration with body := spellBody rule none false declaration.body }
  | node => spellStatement rule none false node

end Spelling

/-! ### What the change keeps -/

section Shapes

variable {rule : Place → Bool} {enclosure : Option Enclosure}

/-- A value stays a call of the declared type, or does not become one. -/
theorem isCallOf_spell (name : String) (node : Node) :
    (spell rule enclosure node).isCallOf name = node.isCallOf name := by
  cases node <;> simp [spell, Node.isCallOf]

theorem singleDeclarator?_spell (node : Node) :
    (spell rule enclosure node).singleDeclarator? =
      node.singleDeclarator?.map (spellDeclarator rule enclosure) := by
  cases node with
  | bindings declarators =>
    rcases declarators with _ | ⟨declarator, _ | ⟨other, rest⟩⟩ <;>
      simp [spell, Node.singleDeclarator?]
  | _ => simp [spell, Node.singleDeclarator?]

theorem comparison?_spell (counter : String) (node : Node) :
    Counting.comparison? counter (spell rule enclosure node) =
      (Counting.comparison? counter node).map (Prod.map id (spell rule enclosure)) := by
  cases node with
  | operator op left right => cases left <;> simp [spell, Counting.comparison?]
  | _ => simp [spell, Counting.comparison?]

theorem isPlainStep_spell (op : BinaryOp) (amount : Node) :
    Counting.isPlainStep op (spell rule enclosure amount) = Counting.isPlainStep op amount := by
  cases amount <;> simp [spell, Counting.isPlainStep]

theorem update?_spell (counter : String) (node : Node) :
    Counting.update? counter (spell rule enclosure node) =
      (Counting.update? counter node).map (Update.map (spell rule enclosure)) := by
  cases node with
  | operator op left right =>
    cases left with
    | accessor name =>
      simp only [spell, Counting.update?, isPlainStep_spell]
      split_ifs <;> simp [Update.map, spell]
    | _ => simp [spell, Counting.update?]
  | unary op operand trailing =>
    cases operand <;> cases op <;> simp [spell, Counting.update?, Update.map]
  | _ => simp [spell, Counting.update?]

/-- The header of a loop keeps its shape. -/
theorem ofLoop?_spell (initial condition afterthought : Option Node) :
    Counting.ofLoop? (initial.map (spell rule enclosure)) (condition.map (spell rule enclosure))
        (afterthought.map (spell rule enclosure)) =
      (Counting.ofLoop? initial condition afterthought).map
        (Counting.map (spell rule enclosure)) := by
  simp only [Counting.ofLoop?, Option.bind_eq_bind, Option.bind_map, Option.map_bind,
    Function.comp_def, singleDeclarator?_spell, spellDeclarator, comparison?_spell, update?_spell,
    Prod.map, id_eq, Option.map_some, Counting.map]

end Shapes

/-! ## Choices of breaks -/

/-- No break in the block that the rule chooses leaves a switch. -/
def Block.Spares (block : Block) (rule : Place → Bool) : Prop :=
  ∀ place, block.Has place → rule place → place.enclosure ≠ some .switch

/-- No break in the node that the rule chooses leaves a switch. -/
def Spares (rule : Place → Bool) (enclosure : Option Enclosure) (node : Node) : Prop :=
  ∀ place, Occurs enclosure node place → rule place → place.enclosure ≠ some .switch

variable {rule : Place → Bool}

theorem occurs_iff {enclosure : Option Enclosure} {node : Node} {place : Place} :
    Occurs enclosure node place ↔
      (∃ operand ∈ operands enclosure node, Occurs operand.1 operand.2 place) ∨
        ∃ block ∈ blocks enclosure node, block.Has place := by
  constructor
  · rintro (⟨hpart, h⟩ | ⟨hblock, h⟩ | ⟨hblock, hstatement, h⟩)
    · exact .inl ⟨_, hpart, h⟩
    · exact .inr ⟨_, hblock, .inl ⟨rfl, h⟩⟩
    · exact .inr ⟨_, hblock, .inr ⟨_, hstatement, h⟩⟩
  · rintro (⟨⟨inner, part⟩, hpart, h⟩ | ⟨block, hblock, ⟨henclosure, h⟩ | ⟨statement, hs, h⟩⟩)
    · exact .operand hpart h
    · obtain ⟨enclosure, closing⟩ := place
      obtain rfl : enclosure = block.enclosure := henclosure
      exact .statement hblock h
    · exact .nested hblock hs h

theorem spares_iff {enclosure : Option Enclosure} {node : Node} :
    Spares rule enclosure node ↔
      (∀ operand ∈ operands enclosure node, Spares rule operand.1 operand.2) ∧
        ∀ block ∈ blocks enclosure node, block.Spares rule := by
  constructor
  · intro h
    refine ⟨fun operand hoperand place hp => ?_, fun block hblock place hp => ?_⟩
    · exact h place (occurs_iff.mpr (.inl ⟨operand, hoperand, hp⟩))
    · exact h place (occurs_iff.mpr (.inr ⟨block, hblock, hp⟩))
  · rintro ⟨hoperands, hblocks⟩ place hp
    obtain ⟨operand, hoperand, hp⟩ | ⟨block, hblock, hp⟩ := occurs_iff.mp hp
    · exact hoperands operand hoperand place hp
    · exact hblocks block hblock place hp

/-- Statement by statement: the statement itself, and what is inside it. -/
theorem Block.spares_iff {block : Block} :
    block.Spares rule ↔ ∀ entry ∈ block.marked,
      (entry.2.kind = .break → rule ⟨block.enclosure, entry.1⟩ →
        block.enclosure ≠ some .switch) ∧ Breaks.Spares rule block.enclosure entry.2 := by
  have hmem : ∀ statement, statement ∈ block.statements ↔
      ∃ closing, (closing, statement) ∈ block.marked := by
    intro statement
    rw [← map_snd_marked block.isCase block.statements]
    simp [Block.marked]
  constructor
  · rintro h ⟨closing, statement⟩ hentry
    refine ⟨fun hbreak hrule => ?_, fun place hp => ?_⟩
    · obtain rfl : statement = .break := by
        cases statement <;> simp_all [Node.kind]
      exact h ⟨block.enclosure, closing⟩ (.inl ⟨rfl, hentry⟩) hrule
    · exact h place (.inr ⟨statement, (hmem statement).mpr ⟨closing, hentry⟩, hp⟩)
  · rintro h place (⟨henclosure, hentry⟩ | ⟨statement, hstatement, hp⟩) hrule
    · obtain ⟨enclosure, closing⟩ := place
      obtain rfl : enclosure = block.enclosure := henclosure
      exact (h (closing, .break) hentry).1 rfl hrule
    · obtain ⟨closing, hentry⟩ := (hmem statement).mp hstatement
      exact (h (closing, statement) hentry).2 place hp hrule

variable {enclosure : Option Enclosure}

theorem spares_leaf {node : Node} (hoperands : operands enclosure node = [])
    (hblocks : blocks enclosure node = []) : Spares rule enclosure node :=
  spares_iff.mpr (by simp [hoperands, hblocks])

theorem spares_accessor (name : String) : Spares rule enclosure (.accessor name) :=
  spares_leaf rfl rfl

theorem spares_operator_accessor (op : BinaryOp) (name : String) (right : Node) :
    Spares rule enclosure (.operator op (.accessor name) right) ↔ Spares rule enclosure right := by
  refine spares_iff.trans ?_
  simp [operands, blocks, Node.parts, spares_accessor]

theorem spares_unary_accessor (op : UnaryOp) (name : String) (trailing : Bool) :
    Spares rule enclosure (.unary op (.accessor name) trailing) := by
  refine spares_iff.mpr ?_
  simp [operands, blocks, Node.parts, spares_accessor]

theorem spares_single_binding (name type : String) (value : Node) (mutable : Bool) :
    Spares rule enclosure (.bindings [⟨name, type, some value, mutable⟩]) ↔
      Spares rule enclosure value := by
  refine spares_iff.trans ?_
  simp [operands, blocks, Node.parts]

/-- Breaks in an afterthought are in the part of it that is emitted. -/
theorem spares_iff_of_steps {counter : String} {last : Node} {update : Update Node}
    (h : Counting.Steps counter last update) :
    Spares rule enclosure last ↔ ∀ operand ∈ update.operand?, Spares rule enclosure operand := by
  cases h with
  | increment | decrement => simp [spares_unary_accessor, Update.operand?]
  | step | assign => simp [spares_operator_accessor, Update.operand?]

/-- Of all branches, the conditions and the bodies apart. -/
theorem forall_branch_iff (enclosure : Option Enclosure) (isCase : Bool)
    (branches : List (Branch Node)) :
    (∀ branch ∈ branches, (∀ value ∈ branch.condition, Spares rule enclosure value) ∧
        Block.Spares ⟨enclosure, isCase, branch.body⟩ rule) ↔
      (∀ value ∈ branches.filterMap Branch.condition, Spares rule enclosure value) ∧
        ∀ body ∈ branches.map Branch.body, Block.Spares ⟨enclosure, isCase, body⟩ rule := by
  simp only [List.forall_mem_filterMap, List.forall_mem_map, Option.mem_def, forall_and]

end Breaks

namespace Program

/-- The top-level statements of a program, and the bodies of its functions. -/
def blocks (program : Program) : List Breaks.Block :=
  ⟨none, false, program.body⟩ ::
    program.body.filterMap fun node =>
      match node with
      | .function declaration => some ⟨none, false, declaration.body⟩
      | _ => none

/-- A statement of the program is a break in the given place. -/
def HasBreak (program : Program) (place : Breaks.Place) : Prop :=
  ∃ block ∈ program.blocks, block.Has place

/-- The program with the breaks that the rule chooses written as calls. -/
def spellBreaks (program : Program) (rule : Breaks.Place → Bool) : Program :=
  ⟨program.body.map (Breaks.spellRoot rule)⟩

end Program

end ShaderScript
