import ShaderScript.Emit.Node
import ShaderScript.Proofs.Tree

/-!
# Emission, part by part

The recursion over the tree runs through companions for the lists and records inside a node. Each
of them does the same to every entry, so it is a map; with that, a proof about `emit` need only look
at the parts of a node. A counting loop is the one node that is taken apart further before its parts
are emitted, and its shape is recovered here.
-/

namespace ShaderScript

section Companions

variable (context : Context)

@[simp]
theorem emitOptional_eq_map (node : Option Node) :
    emitOptional context node = node.map (emit context) := by
  cases node <;> simp [emitOptional]

@[simp]
theorem emitAll_eq_map (nodes : List Node) : emitAll context nodes = nodes.map (emit context) := by
  induction nodes with
  | nil => simp [emitAll]
  | cons node nodes ih => simp [emitAll, ih]

@[simp]
theorem emitElements_eq_map (elements : List (Element Node)) :
    emitElements context elements = elements.map (emitElement context) := by
  induction elements with
  | nil => simp [emitElements]
  | cons element elements ih => simp [emitElements, ih]

@[simp]
theorem emitDeclarators_eq_map (declarators : List (Declarator Node)) :
    emitDeclarators context declarators = declarators.map (emitDeclarator context) := by
  induction declarators with
  | nil => simp [emitDeclarators]
  | cons declarator declarators ih => simp [emitDeclarators, ih]

@[simp]
theorem emitAlternates_eq_map (branches : List (Branch Node)) :
    emitAlternates context branches = branches.map (emitAlternate context) := by
  induction branches with
  | nil => simp [emitAlternates]
  | cons branch branches ih => simp [emitAlternates, ih]

@[simp]
theorem emitCases_eq_map (branches : List (Branch Node)) :
    emitCases context branches = branches.map (emitCase context) := by
  induction branches with
  | nil => simp [emitCases]
  | cons branch branches ih => simp [emitCases, ih]

end Companions

/-- A number takes the sign of a unary operator into its conversion; any other operand is emitted
first. -/
theorem emit_unary_cases (context : Context) (op : UnaryOp) (operand : Node) (trailing : Bool) :
    (∃ value kind, operand = .number value kind ∧
        emit context (.unary op operand trailing) = Form.signedNumber op value kind) ∨
      (∀ value kind, operand ≠ .number value kind) ∧
        emit context (.unary op operand trailing) =
          Form.unary op trailing context.initializing (emit context operand) := by
  cases operand with
  | number value kind => exact .inl ⟨value, kind, rfl, by rw [emit]⟩
  | _ => exact .inr ⟨nofun, by simp only [emit]⟩

theorem notes_emitElement (element : Element Node) (context : Context) :
    (emitElement context element).notes = (emit context element.value).notes := by
  cases element with
  | member value => rw [emitElement, Form.link, Element.value]
  | index value =>
    rw [emitElement, Form.link, Element.value]
    split <;> rfl

namespace Body

/-- The statements of a body that are emitted. -/
def kept (inCase : Bool) (nodes : List Node) : List Node :=
  nodes.filter fun node => !isDropped inCase node

theorem kept_zip_map (inCase : Bool) (f : Node → Fragment) (nodes : List Node) :
    ((nodes.zip (nodes.map f)).filter fun (node, _) => !isDropped inCase node) =
      (kept inCase nodes).map fun node => (node, f node) := by
  induction nodes with
  | nil => rfl
  | cons node nodes ih =>
    simp only [kept] at ih ⊢
    cases h : isDropped inCase node <;> simp [h, ih]

theorem assemble_map (depth : Nat) (inCase : Bool) (f : Node → Fragment) (nodes : List Node) :
    assemble depth inCase nodes (nodes.map f) =
      ⟨"\n".intercalate (lines depth none ((kept inCase nodes).map fun node => (node, f node))),
        (kept inCase nodes).flatMap fun node => (f node).notes⟩ := by
  simp only [assemble, kept_zip_map, Fragment.allNotes, List.flatMap_map]

end Body

/-- The body of these statements. -/
def emitBody (context : Context) (nodes : List Node) : Fragment :=
  Body.ofFragments context nodes (nodes.map (emit context))

@[simp]
theorem ofFragments_eq_emitBody (context : Context) (nodes : List Node) :
    Body.ofFragments context nodes (nodes.map (emit context)) = emitBody context nodes :=
  rfl

theorem notes_emitBody (context : Context) (nodes : List Node) :
    (emitBody context nodes).notes =
      (Body.kept context.inCase nodes).flatMap fun node => (emit context node).notes := by
  rw [emitBody, Body.ofFragments, Body.assemble_map]

/-! ## The arms of a switch -/

namespace Arm

variable {α β γ δ : Type}

/-- The arm with other labels and another body. -/
def map (f : α → γ) (g : β → δ) : Arm α β → Arm γ δ
  | .cases labels body closed => .cases (labels.map f) (body.map g) closed
  | .default body => .default (body.map g)

def labels : Arm α β → List α
  | .cases labels _ _ => labels
  | .default _ => []

def body? : Arm α β → Option β
  | .cases _ body _ => body
  | .default body => body

theorem labels_map (f : α → γ) (g : β → δ) (arm : Arm α β) :
    (arm.map f g).labels = arm.labels.map f := by
  cases arm <;> rfl

theorem body?_map (f : α → γ) (g : β → δ) (arm : Arm α β) :
    (arm.map f g).body? = arm.body?.map g := by
  cases arm <;> rfl

/-- Cases are grouped by which of them have a label and a body, whatever these are. -/
theorem group_map (f : α → γ) (g : β → δ) (pending : List α)
    (entries : List (Option α × Option β)) :
    group (pending.map f) (entries.map (Prod.map (Option.map f) (Option.map g))) =
      (group pending entries).map (map f g) := by
  fun_induction group pending entries with
  | case1 => simp [group]
  | case2 pending hp => cases pending <;> simp_all [group, map]
  | case3 body rest ih => simpa [group, map] using ih
  | case4 pending body rest hp ih => cases pending <;> simp_all [group, map]
  | case5 pending label rest ih => simpa [group] using ih
  | case6 pending label body rest ih => simpa [group, map] using ih

theorem label_of_mem_group {arm : Arm α β} {pending : List α}
    {entries : List (Option α × Option β)} {label : α} (h : arm ∈ group pending entries)
    (hl : label ∈ arm.labels) : label ∈ pending ∨ label ∈ entries.filterMap Prod.fst := by
  fun_induction group pending entries <;> grind [labels]

theorem body_of_mem_group {arm : Arm α β} {pending : List α}
    {entries : List (Option α × Option β)} {body : β} (h : arm ∈ group pending entries)
    (hb : arm.body? = some body) : body ∈ entries.filterMap Prod.snd := by
  fun_induction group pending entries <;> grind [body?]

end Arm

/-- A case as an entry for grouping: a body without statements is none. -/
def Branch.entry (branch : Branch Node) : Option Node × Option (List Node) :=
  (branch.condition, if branch.body.isEmpty then none else some branch.body)

/-- The arms that the cases of a switch fall into. -/
def Branch.arms (cases : List (Branch Node)) : List (Arm Node (List Node)) :=
  Arm.group [] (cases.map Branch.entry)

theorem Branch.label_mem_parts {cases : List (Branch Node)} {arm : Arm Node (List Node)}
    {label : Node} (ha : arm ∈ arms cases) (hl : label ∈ arm.labels) :
    label ∈ cases.flatMap Branch.parts := by
  obtain hp | he := Arm.label_of_mem_group ha hl
  · cases hp
  · simp only [List.filterMap_map, List.mem_filterMap, Function.comp_apply, Branch.entry] at he
    obtain ⟨branch, hb, hc⟩ := he
    refine List.mem_flatMap.mpr ⟨branch, hb, ?_⟩
    exact List.mem_append_left _ (Option.mem_toList.mpr hc)

theorem Branch.body_mem_parts {cases : List (Branch Node)} {arm : Arm Node (List Node)}
    {nodes : List Node} {node : Node} (ha : arm ∈ arms cases) (hb : arm.body? = some nodes)
    (hn : node ∈ nodes) : node ∈ cases.flatMap Branch.parts := by
  have he := Arm.body_of_mem_group ha hb
  simp only [List.filterMap_map, List.mem_filterMap, Function.comp_apply, Branch.entry] at he
  obtain ⟨branch, hm, hbody⟩ := he
  obtain ⟨-, rfl⟩ : ¬ branch.body = [] ∧ branch.body = nodes := by simpa using hbody
  exact List.mem_flatMap.mpr ⟨branch, hm, List.mem_append_right _ hn⟩

theorem group_emitCases (context : Context) (cases : List (Branch Node)) :
    Arm.group [] (emitCases context cases) =
      (Branch.arms cases).map (Arm.map (emit context) (emitBody context.deeper)) := by
  rw [Branch.arms, ← Arm.group_map, emitCases_eq_map, List.map_map]
  congr 2
  funext branch
  obtain ⟨condition, body⟩ := branch
  cases body <;> simp [emitCase, Branch.entry, emitBody]

/-! ## Loops that count -/

namespace Counting

/-- The loop over other parts. -/
def map {ν μ : Type} (f : ν → μ) (counting : Counting ν) : Counting μ where
  name := counting.name
  type := counting.type
  start := f counting.start
  comparison := counting.comparison
  limit := f counting.limit
  update := counting.update.map f

/-- What the afterthought of a counting loop looks like. -/
inductive Steps (counter : String) : Node → Update Node → Prop
  | increment (trailing : Bool) :
    Steps counter (.unary .increment (.accessor counter) trailing) .increment
  | decrement (trailing : Bool) :
    Steps counter (.unary .decrement (.accessor counter) trailing) .decrement
  | step {op : BinaryOp} {amount : Node} (h : isPlainStep op amount) :
    Steps counter (.operator op (.accessor counter) amount) (.step amount)
  | assign {op : BinaryOp} {amount : Node} (ha : op.isAssignment)
    (h : isPlainStep op amount = false) :
    Steps counter (.operator op (.accessor counter) amount)
      (.assign (.operator op (.accessor counter) amount))

theorem steps_of_update? {counter : String} {afterthought : Node} {update : Update Node}
    (h : update? counter afterthought = some update) : Steps counter afterthought update := by
  unfold update? at h
  split at h
  · split at h
    · subst_vars
      split at h <;> cases h
      · exact .increment _
      · exact .decrement _
    · cases h
  · split at h
    · rename_i hc
      obtain ⟨rfl, ha⟩ := hc
      split at h <;> cases h
      · exact .step ‹_›
      · exact .assign ha (Bool.eq_false_iff.mpr ‹_›)
    · cases h
  · cases h

/-- What an update emits is the afterthought of the loop or a part of it. -/
theorem Steps.operand {counter : String} {last inner : Node} {update : Update Node}
    (hsteps : Steps counter last update) (h : inner ∈ update.operand?) :
    inner = last ∨ inner ∈ last.parts := by
  cases hsteps with
  | increment | decrement => cases h
  | step =>
    cases h
    exact .inr (by simp [Node.parts])
  | assign =>
    cases h
    exact .inl rfl

/-- A loop that is taken to count declares its counter, compares it and steps it. -/
theorem shape_of_ofLoop? {initial condition afterthought : Option Node} {counting : Counting Node}
    (h : ofLoop? initial condition afterthought = some counting) :
    ∃ mutable last,
      initial = some (.bindings [⟨counting.name, counting.type, some counting.start, mutable⟩]) ∧
      condition =
        some (.operator counting.comparison (.accessor counting.name) counting.limit) ∧
      counting.comparison.isComparison ∧
      afterthought = some last ∧ Steps counting.name last counting.update := by
  simp only [ofLoop?, Option.bind_eq_bind, Option.bind_eq_some_iff, Option.some.injEq] at h
  obtain ⟨first, rfl, declarator, hd, start, hs, test, rfl, ⟨comparison, limit⟩, hc, last, rfl,
    update, hu, rfl⟩ := h
  obtain ⟨name, type, value, mutable⟩ := declarator
  obtain rfl : value = some start := hs
  have hfirst : first = .bindings [⟨name, type, some start, mutable⟩] := by
    unfold Node.singleDeclarator? at hd
    split at hd
    · cases hd
      rfl
    · cases hd
  have htest : test = .operator comparison (.accessor name) limit ∧ comparison.isComparison := by
    unfold comparison? at hc
    split at hc
    · split at hc
      · rename_i hcond
        obtain ⟨rfl, hcomp⟩ := hcond
        cases hc
        exact ⟨rfl, hcomp⟩
      · cases hc
    · cases hc
  exact ⟨mutable, last, by rw [hfirst], by rw [htest.1], htest.2, rfl, steps_of_update? hu⟩

/-- What is emitted of the header of a counting loop lies in the header, one level further down at
most. -/
theorem part_of_mem_header {initial condition afterthought : Option Node} {body : List Node}
    {counting : Counting Node} (h : ofLoop? initial condition afterthought = some counting)
    {inner : Node}
    (hinner : inner ∈ counting.start :: counting.limit :: counting.update.operand?.toList) :
    inner ∈ (Node.loop initial condition afterthought body).parts ∨
      ∃ part ∈ (Node.loop initial condition afterthought body).parts, inner ∈ part.parts := by
  obtain ⟨mutable, last, rfl, rfl, -, rfl, hsteps⟩ := shape_of_ofLoop? h
  let first := Node.bindings [⟨counting.name, counting.type, some counting.start, mutable⟩]
  let test := Node.operator counting.comparison (.accessor counting.name) counting.limit
  simp only [List.mem_cons, Option.mem_toList] at hinner
  obtain rfl | rfl | hupdate := hinner
  · exact .inr ⟨first, by simp [Node.parts, first], by simp [Node.parts, first]⟩
  · exact .inr ⟨test, by simp [Node.parts, test], by simp [Node.parts, test]⟩
  · obtain rfl | hpart := hsteps.operand hupdate
    · exact .inl (by simp [Node.parts])
    · exact .inr ⟨last, by simp [Node.parts], hpart⟩

end Counting

section Loops

variable {context : Context} {initial condition afterthought : Option Node} {body : List Node}

/-- A counting loop, from the emitted parts of what it counts. -/
theorem emit_counting {counting : Counting Node}
    (h : Counting.ofLoop? initial condition afterthought = some counting) :
    emit context (.loop initial condition afterthought body) =
      Form.countingLoop context.depth (counting.map (emit context))
        (emitBody context.outsideCase.deeper body) := by
  obtain ⟨mutable, last, rfl, rfl, -, rfl, hsteps⟩ := Counting.shape_of_ofLoop? h
  obtain ⟨name, type, start, comparison, limit, update⟩ := counting
  rw [emit, h]
  simp only at hsteps
  cases hsteps <;> simp [emitStart, emitRight, emitAssignment, Counting.map, Update.map]

theorem emit_general (h : Counting.ofLoop? initial condition afterthought = none) :
    emit context (.loop initial condition afterthought body) =
      Form.generalLoop context.depth (initial.map (emit context)) (condition.map (emit context))
        (afterthought.map (emit context)) (emitBody context.outsideCase.deeper.deeper body) := by
  simp [emit, h]

end Loops

end ShaderScript
