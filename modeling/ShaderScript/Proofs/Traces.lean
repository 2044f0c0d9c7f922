import Mathlib.Data.Option.Basic
import Mathlib.Logic.Relation
import Mathlib.Tactic.SplitIfs
import ShaderScript.Proofs.Tree
import ShaderScript.Proofs.Emission
import ShaderScript.Emit.Document

/-!
# What emission leaves behind

Some notes say what is in a tree: that it has a defect, that its text is built with a name of the
library, or that it declares a global name. Such a note is among those of a node exactly when the
node has its cause somewhere outside nested functions. So emission looks at every node there, also
where a node leaves no text: an argument that a sampling call does not use, a body that two arms of
a switch share.
-/

namespace ShaderScript

/-- The kinds of defect a program can have. -/
inductive Defect where
  | unknownNode
  | nestedFunction
  | unterminatedCases
deriving DecidableEq

/-- The kind of defect that a diagnostic is about. -/
def Diagnostic.defect : Diagnostic → Defect
  | .unknownNode => .unknownNode
  | .nestedFunction _ => .nestedFunction
  | .unterminatedCases _ => .unterminatedCases

/-- What a note can tell about the tree it was taken from. -/
inductive Trace where
  | required (name : String)
  | declared (name : String)
  | defect (kind : Defect)

@[simp]
def Note.trace? : Note → Option Trace
  | .require name => some (.required name)
  | .declare name => some (.declared name)
  | .report diagnostic => some (.defect diagnostic.defect)
  | .mention _ => none

/-! ## Traces of a tree -/

/-- The last of the cases has a label and no statements. -/
def EndsOpen (cases : List (Branch Node)) : Prop :=
  ∃ last ∈ cases.getLast?, last.condition.isSome ∧ last.body = []

/-- The names of the library that statements with a body are built with. -/
def statementNames : List String :=
  ["If", "Loop", "Switch"]

namespace Node

/-- The inner node is the outer one or lies anywhere inside it. -/
def Contains : Node → Node → Prop :=
  Relation.ReflTransGen fun outer inner => inner ∈ outer.parts

/-- The inner node is the outer one or lies inside it, but not inside a function there. -/
def Sees : Node → Node → Prop :=
  Relation.ReflTransGen fun outer inner => inner ∈ outer.openParts

/-- The node itself is a cause of the trace, if it does not stand at the top level. -/
def Shows (trace : Trace) : Node → Prop
  | .unknown => trace = .defect .unknownNode
  | .function _ => trace = .defect .nestedFunction
  | .uniform name _ | .varying name _ => trace = .declared name
  | .conditional .. => trace = .required "If"
  | .loop .. => trace = .required "Loop"
  | .switch _ cases =>
    trace = .required "Switch" ∨ trace = .defect .unterminatedCases ∧ EndsOpen cases
  | _ => False

/-- The node shows the trace or sees a node that shows it. -/
def Bears (trace : Trace) (node : Node) : Prop :=
  ∃ inner, node.Sees inner ∧ inner.Shows trace

theorem bears_iff (trace : Trace) (node : Node) :
    node.Bears trace ↔
      node.Shows trace ∨ ∃ part ∈ node.openParts, part.Bears trace := by
  constructor
  · rintro ⟨inner, hs, hd⟩
    rcases Relation.ReflTransGen.cases_head hs with rfl | ⟨part, hp, hs⟩
    · exact .inl hd
    · exact .inr ⟨part, hp, inner, hs, hd⟩
  · rintro (hd | ⟨part, hp, inner, hs, hd⟩)
    · exact ⟨node, .refl, hd⟩
    · exact ⟨inner, .head hp hs, hd⟩

/-- A function anywhere inside a node shows: it is seen, or another function around it is. -/
theorem sees_function_of_contains {node : Node} {declaration : FunctionDecl Node}
    (h : node.Contains (.function declaration)) : ∃ outer, node.Sees (.function outer) := by
  induction h using Relation.ReflTransGen.head_induction_on with
  | refl => exact ⟨declaration, .refl⟩
  | @head node part hp _ ih =>
    obtain ⟨outer, hs⟩ := ih
    cases node with
    | function own => exact ⟨own, .refl⟩
    | _ => exact ⟨outer, .head hp hs⟩

/-- The only names that a node is built with are those of its statements with a body. -/
theorem required_of_bears {node : Node} {name : String} (h : node.Bears (.required name)) :
    name ∈ statementNames := by
  obtain ⟨inner, -, hshows⟩ := h
  cases inner <;> simp_all [Shows, statementNames]

theorem contains_of_sees {outer inner : Node} (h : outer.Sees inner) : outer.Contains inner := by
  refine Relation.ReflTransGen.mono ?_ _ _ h
  intro node part hp
  cases node with
  | function => simp [openParts] at hp
  | _ => exact hp

end Node

/-! ## Traces among notes -/

/-- A note with this trace is among the notes. -/
def Leaves (trace : Trace) (notes : List Note) : Prop :=
  ∃ note ∈ notes, some trace = note.trace?

section Notes

variable {trace : Trace}

@[simp]
theorem leaves_nil : ¬ Leaves trace [] := by
  simp [Leaves]

@[simp]
theorem leaves_cons (note : Note) (notes : List Note) :
    Leaves trace (note :: notes) ↔ some trace = note.trace? ∨ Leaves trace notes := by
  simp [Leaves]

@[simp]
theorem leaves_append (left right : List Note) :
    Leaves trace (left ++ right) ↔ Leaves trace left ∨ Leaves trace right := by
  simp [Leaves, or_and_right, exists_or]

@[simp]
theorem leaves_mentions (names : List String) : ¬ Leaves trace (names.map Note.mention) := by
  simp [Leaves]

@[simp]
theorem leaves_flatMap {α : Type} (f : α → List Note) (items : List α) :
    Leaves trace (items.flatMap f) ↔ ∃ item ∈ items, Leaves trace (f item) := by
  simp only [Leaves, List.mem_flatMap]
  grind

@[simp]
theorem leaves_allNotes (fragments : List Fragment) :
    Leaves trace (Fragment.allNotes fragments) ↔
      ∃ fragment ∈ fragments, Leaves trace fragment.notes :=
  leaves_flatMap Fragment.notes fragments

@[simp]
theorem leaves_allNotes_map {α : Type} (f : α → Fragment) (items : List α) :
    Leaves trace (Fragment.allNotes (items.map f)) ↔
      ∃ item ∈ items, Leaves trace (f item).notes := by
  rw [Fragment.allNotes, List.flatMap_map, leaves_flatMap]

@[simp]
theorem leaves_optional (fragment : Option Fragment) :
    Leaves trace ((fragment.map Fragment.notes).getD []) ↔
      ∃ inner ∈ fragment, Leaves trace inner.notes := by
  cases fragment <;> simp

theorem leaves_required {name : String} {notes : List Note} :
    Leaves (.required name) notes ↔ .require name ∈ notes := by
  constructor
  · rintro ⟨note, hnote, htrace⟩
    cases note <;> simp_all
  · intro h
    exact ⟨_, h, rfl⟩

theorem leaves_declared {name : String} {notes : List Note} :
    Leaves (.declared name) notes ↔ .declare name ∈ notes := by
  constructor
  · rintro ⟨note, hnote, htrace⟩
    cases note <;> simp_all
  · intro h
    exact ⟨_, h, rfl⟩

/-! ## Traces of the forms -/

theorem leaves_number (value : String) (kind : NumberKind) :
    ¬ Leaves trace (Form.number value kind).notes := by
  unfold Form.number
  split <;> simp [Fragment.plain]

theorem leaves_binary (op : BinaryOp) (left right : Fragment) :
    Leaves trace (Form.binary op left right).notes ↔
      Leaves trace left.notes ∨ Leaves trace right.notes := by
  simp only [Form.binary]
  split_ifs <;> simp

theorem leaves_unary (op : UnaryOp) (trailing initializing : Bool) (operand : Fragment) :
    Leaves trace (Form.unary op trailing initializing operand).notes ↔
      Leaves trace operand.notes := by
  unfold Form.unary
  split
  · rfl
  · split <;> simp

theorem leaves_call (name : String) (args : List Fragment) :
    Leaves trace (Form.call name args).notes ↔ ∃ arg ∈ args, Leaves trace arg.notes := by
  unfold Form.call
  split <;> simp

theorem leaves_link (element : Element Fragment) :
    Leaves trace (Form.link element).notes ↔ Leaves trace element.value.notes := by
  cases element with
  | member => rfl
  | index value =>
    simp only [Form.link]
    split_ifs <;> rfl

theorem leaves_returned (value : Option Fragment) :
    Leaves trace (Form.returned value).notes ↔ ∃ inner ∈ value, Leaves trace inner.notes := by
  cases value <;> simp [Form.returned, Fragment.plain]

theorem leaves_binding (name type : String) (value : Option Fragment) (isConverted mutable : Bool) :
    Leaves trace (Form.binding name type value isConverted mutable).notes ↔
      ∃ inner ∈ value, Leaves trace inner.notes := by
  cases value with
  | none => simp [Form.binding, Fragment.plain]
  | some value => cases isConverted <;> simp [Form.binding]

theorem leaves_uniform (reference : Bool) (name type : String) :
    Leaves trace (Form.uniform reference name type).notes ↔ trace = .declared name := by
  unfold Form.uniform Form.uniformValue
  cases reference <;> cases Form.resource? type <;> simp

theorem leaves_alternate (depth : Nat) (condition : Option Fragment) (body : Fragment) :
    Leaves trace (Form.alternate depth (condition, body)).notes ↔
      (∃ inner ∈ condition, Leaves trace inner.notes) ∨ Leaves trace body.notes := by
  cases condition <;> simp [Form.alternate, or_comm]

theorem leaves_countingLoop (depth : Nat) (counting : Counting Fragment) (body : Fragment) :
    Leaves trace (Form.countingLoop depth counting body).notes ↔
      Leaves trace counting.start.notes ∨ Leaves trace counting.limit.notes ∨
        (∃ operand ∈ counting.update.operand?, Leaves trace operand.notes) ∨
          Leaves trace body.notes ∨ trace = .required "Loop" := by
  simp [Form.countingLoop]

theorem leaves_generalLoop (depth : Nat) (initial condition afterthought : Option Fragment)
    (body : Fragment) :
    Leaves trace (Form.generalLoop depth initial condition afterthought body).notes ↔
      (∃ inner ∈ initial, Leaves trace inner.notes) ∨
        (∃ inner ∈ condition, Leaves trace inner.notes) ∨
          (∃ inner ∈ afterthought, Leaves trace inner.notes) ∨ Leaves trace body.notes ∨
            trace = .required "Loop" := by
  simp [Form.generalLoop]

end Notes

/-! ## Groups of cases -/

/-- The last group of cases is left without a body: the last case has a label and no body, or the
labels that are pending are followed by no case at all. -/
def OpenEnd {α β : Type} (pending : List α) (cases : List (Option α × Option β)) : Prop :=
  match cases.getLast? with
  | none => pending ≠ []
  | some (label, body) => label.isSome ∧ body = none

theorem openEnd_cons {α β : Type} (pending next : List α) (label : Option α) (body : Option β)
    (rest : List (Option α × Option β)) (h : next ≠ [] ↔ label.isSome ∧ body = none) :
    OpenEnd next rest ↔ OpenEnd pending ((label, body) :: rest) := by
  unfold OpenEnd
  rw [List.getLast?_cons]
  cases rest.getLast? with
  | none => simpa using h
  | some last => rfl

section Arms

variable {trace : Trace} (depth : Nat)

theorem leaves_arm_cases (labels : List Fragment) (body : Option Fragment) (closed : Bool) :
    Leaves trace (Form.arm depth (.cases labels body closed)).notes ↔
      (∃ label ∈ labels, Leaves trace label.notes) ∨
        (∃ inner ∈ body, Leaves trace inner.notes) ∨
          (trace = .defect .unterminatedCases ∧ closed = false) := by
  cases closed <;> simp [Form.arm, Diagnostic.defect, or_comm]

theorem leaves_arm_default (body : Option Fragment) :
    Leaves trace (Form.arm depth (.default body)).notes ↔
      ∃ inner ∈ body, Leaves trace inner.notes := by
  simp [Form.arm]

theorem leaves_arms_cons (arm : Arm Fragment Fragment) (arms : List (Arm Fragment Fragment)) :
    Leaves trace (Fragment.allNotes ((arm :: arms).map (Form.arm depth))) ↔
      Leaves trace (Form.arm depth arm).notes ∨
        Leaves trace (Fragment.allNotes (arms.map (Form.arm depth))) := by
  simp [Fragment.allNotes]

/-- The arms of a switch leave what the labels and the bodies of its cases leave, and one thing
more: that the last group has no body. -/
theorem leaves_group (pending : List Fragment) (cases : List (Option Fragment × Option Fragment)) :
    Leaves trace (Fragment.allNotes ((Arm.group pending cases).map (Form.arm depth))) ↔
      (∃ label ∈ pending, Leaves trace label.notes) ∨
        (∃ entry ∈ cases, (∃ label ∈ entry.1, Leaves trace label.notes) ∨
          ∃ body ∈ entry.2, Leaves trace body.notes) ∨
        (trace = .defect .unterminatedCases ∧ OpenEnd pending cases) := by
  fun_induction Arm.group pending cases with
  | case1 => simp [OpenEnd, Fragment.allNotes]
  | case2 pending hp =>
    rw [leaves_arms_cons, leaves_arm_cases]
    simp [OpenEnd, Fragment.allNotes, show pending ≠ [] from hp]
  | case3 body rest ih =>
    rw [leaves_arms_cons, leaves_arm_default, ih,
      openEnd_cons [] [] none body rest (by simp)]
    simp [or_assoc]
  | case4 pending body rest hp ih =>
    rw [leaves_arms_cons, leaves_arms_cons, leaves_arm_cases, leaves_arm_default, ih,
      openEnd_cons pending [] none body rest (by simp)]
    simp [or_assoc]
  | case5 pending label rest ih =>
    rw [ih, openEnd_cons pending (pending ++ [label]) (some label) none rest (by simp)]
    simp [or_assoc]
  | case6 pending label body rest ih =>
    rw [leaves_arms_cons, leaves_arm_cases, ih,
      openEnd_cons pending [] (some label) (some body) rest (by simp)]
    simp [or_assoc]

end Arms

/-! ## Traces of a node -/

section Nodes

variable {trace : Trace}

theorem openEnd_emitCase (context : Context) (cases : List (Branch Node)) :
    OpenEnd [] (cases.map (emitCase context)) ↔ EndsOpen cases := by
  unfold OpenEnd EndsOpen
  rw [List.getLast?_map]
  cases cases.getLast? with
  | none => simp
  | some last =>
    obtain ⟨condition, body⟩ := last
    simp [emitCase]

theorem leaves_emitElement (context : Context) (element : Element Node) :
    Leaves trace (emitElement context element).notes ↔
      Leaves trace (emit context element.value).notes := by
  cases element with
  | member value => rw [emitElement, leaves_link, Element.value, Element.value]
  | index value => rw [emitElement, leaves_link, Element.value, Element.value]

theorem leaves_emitDeclarator (context : Context) (declarator : Declarator Node) :
    Leaves trace (emitDeclarator context declarator).notes ↔
      ∃ value ∈ declarator.value, Leaves trace (emit context value).notes := by
  obtain ⟨name, type, value, mutable⟩ := declarator
  rw [emitDeclarator, leaves_binding, emitOptional_eq_map, Option.exists_mem_map]

/-- A node leaves the traces that it bears. -/
def LeavesSeen (trace : Trace) (node : Node) : Prop :=
  ∀ context, Leaves trace (emit context node).notes ↔ node.Bears trace

theorem exists_mem_congr {α γ : Type} [Membership α γ] {items : γ} {p q : α → Prop}
    (h : ∀ item ∈ items, p item ↔ q item) : (∃ item ∈ items, p item) ↔ ∃ item ∈ items, q item :=
  exists_congr fun item => and_congr_right (h item)

theorem exists_mem_map_iff {α β : Type} (f : α → β) (items : List α) (p : β → Prop) :
    (∃ image ∈ items.map f, p image) ↔ ∃ item ∈ items, p (f item) := by
  simp

theorem leaves_optional_node {part : Option Node} (h : ∀ node ∈ part, LeavesSeen trace node)
    (context : Context) :
    (∃ fragment ∈ part.map (emit context), Leaves trace fragment.notes) ↔
      ∃ node ∈ part, node.Bears trace := by
  rw [Option.exists_mem_map]
  exact exists_mem_congr fun node hm => h node hm context

/-- A dropped `break` has no trace, so a body leaves what its statements leave. -/
theorem leaves_emitBody {nodes : List Node} (h : ∀ node ∈ nodes, LeavesSeen trace node)
    (context : Context) :
    Leaves trace (emitBody context nodes).notes ↔ ∃ node ∈ nodes, node.Bears trace := by
  rw [notes_emitBody, leaves_flatMap]
  constructor
  · rintro ⟨node, hk, hr⟩
    have hm : node ∈ nodes := (List.mem_filter.mp hk).1
    exact ⟨node, hm, (h node hm context).mp hr⟩
  · rintro ⟨node, hm, hd⟩
    refine ⟨node, List.mem_filter.mpr ⟨hm, ?_⟩, (h node hm context).mpr hd⟩
    cases node with
    | «break» =>
      rw [Node.bears_iff] at hd
      simp [Node.Shows, Node.openParts, Node.parts] at hd
    | _ => rfl

theorem exists_branch_part (branch : Branch Node) (p : Node → Prop) :
    (∃ part ∈ branch.parts, p part) ↔
      (∃ condition ∈ branch.condition, p condition) ∨ ∃ node ∈ branch.body, p node := by
  simp [Branch.parts, or_and_right, exists_or]

theorem leaves_emitAlternate {branch : Branch Node}
    (h : ∀ part ∈ branch.parts, LeavesSeen trace part) (depth : Nat) (context : Context) :
    Leaves trace (Form.alternate depth (emitAlternate context branch)).notes ↔
      ∃ part ∈ branch.parts, part.Bears trace := by
  obtain ⟨condition, body⟩ := branch
  rw [exists_branch_part, emitAlternate, leaves_alternate, emitOptional_eq_map,
    leaves_optional_node fun node hm => h node (List.mem_append_left _ (by simpa using hm)),
    emitAll_eq_map, ofFragments_eq_emitBody,
    leaves_emitBody fun node hm => h node (List.mem_append_right _ hm)]

theorem leaves_emitCase {branch : Branch Node}
    (h : ∀ part ∈ branch.parts, LeavesSeen trace part) (context : Context) :
    (∃ label ∈ (emitCase context branch).1, Leaves trace label.notes) ∨
        (∃ body ∈ (emitCase context branch).2, Leaves trace body.notes) ↔
      ∃ part ∈ branch.parts, part.Bears trace := by
  obtain ⟨condition, body⟩ := branch
  have hb := leaves_emitBody (fun node hm => h node (List.mem_append_right _ hm)) context.deeper
  rw [exists_branch_part, emitCase, emitOptional_eq_map,
    leaves_optional_node fun node hm => h node (List.mem_append_left _ (by simpa using hm)),
    emitAll_eq_map, ofFragments_eq_emitBody]
  refine or_congr_right ?_
  cases body with
  | nil => simp
  | cons node nodes => simpa using hb

theorem bears_accessor (name : String) : ¬ (Node.accessor name).Bears trace := by
  rw [Node.bears_iff]
  simp [Node.Shows, Node.openParts, Node.parts]

theorem bears_single_binding (name type : String) (value : Node) (mutable : Bool) :
    (Node.bindings [⟨name, type, some value, mutable⟩]).Bears trace ↔
      value.Bears trace := by
  rw [Node.bears_iff]
  simp [Node.Shows, Node.openParts, Node.parts]

theorem bears_operator_accessor (op : BinaryOp) (name : String) (right : Node) :
    (Node.operator op (.accessor name) right).Bears trace ↔ right.Bears trace := by
  rw [Node.bears_iff]
  simp [Node.Shows, Node.openParts, Node.parts, bears_accessor]

theorem bears_unary_accessor (op : UnaryOp) (name : String) (trailing : Bool) :
    ¬ (Node.unary op (.accessor name) trailing).Bears trace := by
  rw [Node.bears_iff]
  simp [Node.Shows, Node.openParts, Node.parts, bears_accessor]

/-- What a counting loop emits of its afterthought has the traces of the afterthought. -/
theorem leaves_update {counter : String} {last : Node} {update : Update Node}
    (hs : Counting.Steps counter last update) (hl : LeavesSeen trace last)
    (hr : ∀ inner ∈ last.parts, LeavesSeen trace inner) (context : Context) :
    (∃ operand ∈ (update.map (emit context)).operand?, Leaves trace operand.notes) ↔
      last.Bears trace := by
  cases hs with
  | increment | decrement => simp [Update.map, Update.operand?, bears_unary_accessor]
  | @step op amount =>
    have ha := hr amount (by simp [Node.parts]) context
    simp [Update.map, Update.operand?, bears_operator_accessor, ha]
  | assign =>
    have ha := hl context
    simp [Update.map, Update.operand?, ha]

theorem leavesSeen_loop {initial condition afterthought : Option Node} {body : List Node}
    (hparts : ∀ part ∈ (Node.loop initial condition afterthought body).parts,
      LeavesSeen trace part ∧ ∀ inner ∈ part.parts, LeavesSeen trace inner) :
    LeavesSeen trace (.loop initial condition afterthought body) := by
  have ih := fun part hp => (hparts part hp).1
  have hbody : ∀ node ∈ body, LeavesSeen trace node :=
    fun node hm => ih node (by simp [Node.parts, hm])
  have hb := leaves_emitBody hbody
  intro context
  rw [Node.bears_iff]
  cases hcount : Counting.ofLoop? initial condition afterthought with
  | none =>
    rw [emit_general hcount, leaves_generalLoop, hb,
      leaves_optional_node fun node hm => ih node (by simp_all [Node.parts]),
      leaves_optional_node fun node hm => ih node (by simp_all [Node.parts]),
      leaves_optional_node fun node hm => ih node (by simp_all [Node.parts])]
    simp only [Option.mem_def, Node.Shows, Node.openParts, Node.parts, List.append_assoc,
      List.mem_append, Option.mem_toList]
    grind
  | some counting =>
    obtain ⟨mutable, last, rfl, rfl, -, rfl, hs⟩ := Counting.shape_of_ofLoop? hcount
    have hfirst := hparts
      (.bindings [⟨counting.name, counting.type, some counting.start, mutable⟩])
      (by simp [Node.parts])
    have htest := hparts
      (.operator counting.comparison (.accessor counting.name) counting.limit)
      (by simp [Node.parts])
    have hstart := hfirst.2 counting.start (by simp [Node.parts]) context
    have hlimit := htest.2 counting.limit (by simp [Node.parts]) context
    have hlast := hparts last (by simp [Node.parts])
    have hupdate := leaves_update hs hlast.1 hlast.2 context
    rw [emit_counting hcount, leaves_countingLoop, hb]
    simp only [Counting.map, hstart, hlimit, hupdate]
    simp only [Node.Shows, Node.openParts, Node.parts, Option.toList_some, List.cons_append,
      List.nil_append, List.mem_cons, exists_eq_or_imp, bears_single_binding,
      bears_operator_accessor]
    grind

/-- Every part of a node is emitted at least once, with the counting loop as the only exception: of
its header the bare counter is left out, and that has no trace. -/
theorem leavesSeen (node : Node) : LeavesSeen trace node := by
  induction node using Node.parts_induction₂ with
  | step node hparts =>
  have ih : ∀ part ∈ node.parts, LeavesSeen trace part := fun part hp => (hparts part hp).1
  intro context
  rw [Node.bears_iff]
  cases node with
  | number value kind => simp [emit, leaves_number, Node.Shows, Node.openParts, Node.parts]
  | string value => simp [emit, Fragment.plain, Node.Shows, Node.openParts, Node.parts]
  | accessor property => simp [emit, Form.accessor, Node.Shows, Node.openParts, Node.parts]
  | chain object elements =>
    have ho := ih object (by simp [Node.parts]) context
    have he : ∀ element ∈ elements, Leaves trace (emitElement context element).notes ↔
        element.value.Bears trace := by
      intro element hm
      rw [leaves_emitElement]
      exact ih _ (List.mem_cons_of_mem _ (List.mem_map_of_mem hm)) context
    simp only [emit, Form.chain, emitElements_eq_map, leaves_append, ho, leaves_allNotes_map,
      exists_mem_congr he]
    simp [Node.Shows, Node.openParts, Node.parts]
  | operator op left right =>
    rw [emit, leaves_binary, ih left (by simp [Node.parts]) context,
      ih right (by simp [Node.parts]) context]
    simp [Node.Shows, Node.openParts, Node.parts]
  | unary op operand trailing =>
    have ho := ih operand (by simp [Node.parts]) context
    rcases emit_unary_cases context op operand trailing with ⟨value, kind, rfl, he⟩ | ⟨-, he⟩
    · have hn : ¬ (Node.number value kind).Bears trace := by
        rw [← ho, emit]
        exact leaves_number value kind
      simp [he, Form.signedNumber, Node.Shows, Node.openParts, Node.parts, hn]
    · rw [he, leaves_unary, ho]
      simp [Node.Shows, Node.openParts, Node.parts]
  | ternary condition left right =>
    have hc := ih condition (by simp [Node.parts]) context
    have hl := ih left (by simp [Node.parts]) context
    have hr := ih right (by simp [Node.parts]) context
    simp [emit, Form.ternary, Node.Shows, Node.openParts, Node.parts, hc, hl, hr]
  | call name args =>
    have ha : ∀ arg ∈ args, Leaves trace (emit context arg).notes ↔ arg.Bears trace :=
      fun arg hm => ih arg hm context
    rw [emit, leaves_call, emitAll_eq_map, exists_mem_map_iff]
    simp [Node.Shows, Node.openParts, Node.parts, exists_mem_congr ha]
  | «return» value =>
    rw [emit, leaves_returned, emitOptional_eq_map,
      leaves_optional_node fun node hm => ih node (by simpa [Node.parts] using hm)]
    simp [Node.Shows, Node.openParts, Node.parts]
  | «break» | «continue» | discard =>
    simp [emit, Form.control, Node.Shows, Node.openParts, Node.parts]
  | bindings declarators =>
    have hd : ∀ declarator ∈ declarators,
        Leaves trace (emitDeclarator context.initializers declarator).notes ↔
          ∃ value ∈ declarator.value, value.Bears trace := by
      intro declarator hm
      rw [leaves_emitDeclarator]
      refine exists_mem_congr fun value hv => ?_
      exact ih value (List.mem_filterMap.mpr ⟨declarator, hm, hv⟩) _
    simp only [emit, Form.bindings, emitDeclarators_eq_map, leaves_append, leaves_allNotes_map,
      exists_mem_congr hd, ← List.map_reverse, leaves_mentions]
    simp only [Option.mem_def, or_false, Node.Shows, Node.openParts, Node.parts,
      List.mem_filterMap, false_or]
    grind
  | uniform name type => simp [emit, leaves_uniform, Node.Shows, Node.openParts, Node.parts]
  | varying name type => simp [emit, Form.varying, Node.Shows, Node.openParts, Node.parts]
  | function declaration =>
    simp [emit, Form.nestedFunction, Node.Shows, Node.openParts, Diagnostic.defect]
  | conditional condition body alternates =>
    have hc := ih condition (by simp [Node.parts]) context
    have hbody : ∀ node ∈ body, LeavesSeen trace node :=
      fun node hm => ih node (by simp [Node.parts, hm])
    have hb := leaves_emitBody hbody context.deeper
    have ha : ∀ branch ∈ alternates,
        Leaves trace (Form.alternate context.depth (emitAlternate context branch)).notes ↔
          ∃ part ∈ branch.parts, part.Bears trace := by
      intro branch hm
      refine leaves_emitAlternate (fun part hp => ih part ?_) _ _
      exact List.mem_cons_of_mem _ (List.mem_append_right _ (List.mem_flatMap.mpr ⟨branch, hm, hp⟩))
    simp only [emit, Form.conditional, emitAll_eq_map, ofFragments_eq_emitBody,
      emitAlternates_eq_map, List.map_map, leaves_append, leaves_allNotes_map, hc, hb,
      Function.comp_apply, exists_mem_congr ha]
    simp only [leaves_cons, Note.trace?, Option.some.injEq, leaves_nil, or_false, Node.Shows,
      Node.openParts, Node.parts, List.mem_cons, List.mem_append, List.mem_flatMap,
      exists_eq_or_imp]
    grind
  | switch discriminant cases =>
    have hd := ih discriminant (by simp [Node.parts]) context
    have hc : ∀ branch ∈ cases,
        (∃ label ∈ (emitCase context.cases branch).1, Leaves trace label.notes) ∨
            (∃ body ∈ (emitCase context.cases branch).2, Leaves trace body.notes) ↔
          ∃ part ∈ branch.parts, part.Bears trace := by
      intro branch hm
      refine leaves_emitCase (fun part hp => ih part ?_) _
      exact List.mem_cons_of_mem _ (List.mem_flatMap.mpr ⟨branch, hm, hp⟩)
    simp only [emit, Form.switch, emitCases_eq_map, leaves_append, hd, leaves_group,
      openEnd_emitCase, exists_mem_map_iff, exists_mem_congr hc]
    simp only [List.not_mem_nil, false_and, exists_false, false_or, leaves_cons, Note.trace?,
      Option.some.injEq, leaves_nil, or_false, Node.Shows, Node.openParts, Node.parts,
      List.mem_cons, List.mem_flatMap, exists_eq_or_imp]
    grind
  | loop initial condition afterthought body =>
    rw [← Node.bears_iff]
    exact leavesSeen_loop hparts context
  | unknown =>
    simp [emit, Form.unknown, Node.Shows, Node.openParts, Node.parts, Diagnostic.defect]

end Nodes

/-! ## Traces of a program -/

/-- The nodes that a top-level statement nests others under: the statements of a function, or the
statement itself. -/
def Node.roots : Node → List Node
  | .function declaration => declaration.body
  | node => [node]

def Program.roots (program : Program) : List Node :=
  program.body.flatMap Node.roots

section Sections

variable {trace : Trace} (options : Options) (all : List String)

theorem note_place (bound : List String) (notes : List Note) :
    (PlacedNote.place bound notes).map PlacedNote.note = notes := by
  simp [PlacedNote.place, Function.comp_def]

/-- The copies of parameters have no trace. -/
theorem leaves_functionBody (declaration : FunctionDecl Node) :
    Leaves trace (declaration.emitBody options).notes ↔
      ∃ node ∈ declaration.body, node.Bears trace := by
  rw [FunctionDecl.emitBody, emitAll_eq_map, ofFragments_eq_emitBody,
    leaves_emitBody fun node _ => leavesSeen node]
  simp only [FunctionDecl.statements, List.mem_append, or_and_right, exists_or]
  have hcopy : ∀ parameter : Parameter, ¬ parameter.copy.Bears trace := by
    intro parameter
    rw [Parameter.copy, bears_single_binding]
    exact bears_accessor _
  simp [hcopy]

theorem leaves_ownNotes (declaration : FunctionDecl Node) (overload : Option Overload) :
    Leaves trace (declaration.ownNotes overload) ↔
      trace = .required "Fn" ∨ trace = .declared declaration.name := by
  unfold FunctionDecl.ownNotes
  split_ifs <;> simp

/-- A top-level function is built with a name and declares one as well. -/
theorem leaves_section (earlier : List String) (node : Node) :
    Leaves trace ((Section.ofNode options all earlier node).notes.map PlacedNote.note) ↔
      (∃ root ∈ node.roots, root.Bears trace) ∨
        ∃ name ∈ functionNames [node], trace = .required "Fn" ∨ trace = .declared name := by
  cases node with
  | function declaration =>
    simp [Section.ofNode, Section.ofFunction, note_place, leaves_functionBody, leaves_ownNotes,
      Node.roots, functionNames]
  | _ => simp [Section.ofNode, note_place, Node.roots, leavesSeen _ _, functionNames]

theorem functionNames_cons (node : Node) (nodes : List Node) :
    functionNames (node :: nodes) = functionNames [node] ++ functionNames nodes := by
  simp only [functionNames, ← List.filterMap_append, List.singleton_append]

theorem leaves_sections (earlier : List String) (previous : Option Node) (nodes : List Node) :
    Leaves trace
        (((sections options all earlier previous nodes).flatMap Section.notes).map
          PlacedNote.note) ↔
      (∃ root ∈ nodes.flatMap Node.roots, root.Bears trace) ∨
        ∃ name ∈ functionNames nodes, trace = .required "Fn" ∨ trace = .declared name := by
  induction nodes generalizing earlier previous with
  | nil => simp [sections, functionNames]
  | cons node nodes ih =>
    simp only [sections, List.flatMap_cons, List.map_append, leaves_append, ih, leaves_section,
      functionNames_cons node nodes, List.mem_append, or_and_right, exists_or]
    exact or_or_or_comm

end Sections

end ShaderScript
