import ShaderScript.Proofs.FormNames
import Mathlib.Data.List.Basic
import ShaderScript.Emit.Document

/-!
# What a program does to names

A program calls for names, is built with names of the library, and introduces global names, one after
the other: a node does so after the parts that it looks at first. `Node.uses` lists this for a node,
and `Program.uses` for a program. It is read off the tree, with one exception: whether an operator
calls for its function depends on how the texts of its operands start. The notes that the generator
takes say the same, next to the problems that it reports.
-/

namespace ShaderScript

/-- What is done to a name. -/
inductive NameUse where
  /-- The name stands for an identifier or for a called function; it may be one of the library. -/
  | calls (name : String)
  /-- A statement is built with a name of the library. -/
  | builds (name : String)
  /-- A global name is introduced. -/
  | introduces (name : String)
deriving DecidableEq

/-! ## The order in which a tree is looked at -/

/-- The statements of a body that are looked at. -/
def Body.looked (context : Context) (nodes : List Node) : List (Context × Node) :=
  (Body.kept context.inCase nodes).map (context, ·)

/-- The body of a branch is looked at before its condition. -/
def Branch.looked (context : Context) (branch : Branch Node) : List (Context × Node) :=
  Body.looked context.deeper branch.body ++ branch.condition.toList.map (context, ·)

/-- The labels of a group of cases are looked at before their body. -/
def Arm.looked (context : Context) (arm : Arm Node (List Node)) : List (Context × Node) :=
  arm.labels.map (context, ·) ++ Body.looked context.deeper (arm.body?.getD [])

namespace Node

/-- The parts of a node in the order in which they are looked at, each with the place where it
stands. The parts of a default case are looked at once more if other cases share its body; those of
the header of a counting loop are looked at without the header. -/
def looked (context : Context) : Node → List (Context × Node)
  | .unary _ (.number ..) _ => []
  | .bindings declarators => (declarators.filterMap Declarator.value).map (context.initializers, ·)
  | .conditional condition body alternates =>
    (context, condition) :: (Body.looked context.deeper body ++
      alternates.flatMap (Branch.looked context))
  | .switch discriminant cases =>
    (context, discriminant) :: (Branch.arms cases).flatMap (Arm.looked context.cases)
  | .loop initial condition afterthought body =>
    match Counting.ofLoop? initial condition afterthought with
    | some counting =>
      (counting.start :: counting.limit :: counting.update.operand?.toList).map (context, ·) ++
        Body.looked context.outsideCase.deeper body
    | none =>
      (initial.toList ++ condition.toList ++ afterthought.toList).map (context, ·) ++
        Body.looked context.outsideCase.deeper.deeper body
  | node => node.openParts.map (context, ·)

/-- What a node does to names after its parts have been looked at. -/
def ownUses (context : Context) : Node → List NameUse
  | .number _ kind => if kind.isNarrow then [.calls kind.spelling] else []
  | .accessor property => [.calls property]
  | .operator op left right =>
    if startsLiteral (emit context left).text && !startsLiteral (emit context right).text then
      [.calls op.method]
    else []
  | .unary _ (.number _ kind) _ => [.calls kind.spelling]
  | .unary op operand trailing =>
    if startsLiteral (emit context operand).text then
      (Form.unaryMethod? op trailing context.initializing).toList.map .calls
    else []
  | .ternary .. => [.calls "select"]
  | .call name args => if SamplingCall.accepts name args.length then [] else [.calls name]
  | .break => [.calls "Break"]
  | .continue => [.calls "Continue"]
  | .discard => [.calls "Discard"]
  | .bindings declarators => (declarators.map Declarator.type).reverse.map .calls
  | .uniform name type => [.introduces name, .calls (uniformConstructor context.reference type)]
  | .varying name type => [.calls "varying", .calls type, .introduces name]
  | .conditional .. => [.builds "If"]
  | .switch .. => [.builds "Switch"]
  | .loop .. => [.builds "Loop"]
  | .string _ | .chain .. | .return _ | .function _ | .unknown => []

theorem mem_of_mem_looked_body {context place : Context} {nodes : List Node} {part : Node}
    (h : (place, part) ∈ Body.looked context nodes) : part ∈ nodes := by
  obtain ⟨node, hkept, hentry⟩ := List.mem_map.mp h
  cases hentry
  exact List.mem_of_mem_filter hkept

theorem mem_of_mem_map_place {context place : Context} {nodes : List Node} {part : Node}
    (h : (place, part) ∈ nodes.map (context, ·)) : part ∈ nodes := by
  obtain ⟨node, hnode, hentry⟩ := List.mem_map.mp h
  cases hentry
  exact hnode

theorem mem_parts_of_mem_looked_branch {context place : Context} {branch : Branch Node}
    {part : Node} (h : (place, part) ∈ branch.looked context) : part ∈ branch.parts := by
  obtain hbody | hcondition := List.mem_append.mp h
  · exact List.mem_append_right _ (mem_of_mem_looked_body hbody)
  · exact List.mem_append_left _ (mem_of_mem_map_place hcondition)

theorem mem_parts_of_mem_looked_arms {context place : Context} {cases : List (Branch Node)}
    {part : Node} (h : (place, part) ∈ (Branch.arms cases).flatMap (Arm.looked context)) :
    part ∈ cases.flatMap Branch.parts := by
  obtain ⟨arm, harm, hlooked⟩ := List.mem_flatMap.mp h
  obtain hlabel | hbody := List.mem_append.mp hlooked
  · exact Branch.label_mem_parts harm (mem_of_mem_map_place hlabel)
  · have hnodes := mem_of_mem_looked_body hbody
    cases hstatements : arm.body? with
    | none =>
      rw [hstatements] at hnodes
      cases hnodes
    | some statements =>
      rw [hstatements] at hnodes
      exact Branch.body_mem_parts harm hstatements hnodes

/-- What is looked at is a part of the node, or in a counting loop a part of a part. -/
theorem part_of_mem_looked {context place : Context} {node part : Node}
    (h : (place, part) ∈ node.looked context) :
    part ∈ node.parts ∨ ∃ outer ∈ node.parts, part ∈ outer.parts := by
  cases node with
  | unary op operand trailing =>
    cases operand with
    | number => cases h
    | _ => exact .inl (mem_of_mem_map_place h)
  | bindings declarators => exact .inl (mem_of_mem_map_place h)
  | conditional condition body alternates =>
    obtain hcondition | hrest := List.mem_cons.mp h
    · cases hcondition
      exact .inl List.mem_cons_self
    · refine .inl (List.mem_cons_of_mem _ ?_)
      obtain hbody | hbranch := List.mem_append.mp hrest
      · exact List.mem_append_left _ (mem_of_mem_looked_body hbody)
      · obtain ⟨branch, hmem, hlooked⟩ := List.mem_flatMap.mp hbranch
        exact List.mem_append_right _
          (List.mem_flatMap.mpr ⟨branch, hmem, mem_parts_of_mem_looked_branch hlooked⟩)
  | switch discriminant cases =>
    obtain hfirst | harms := List.mem_cons.mp h
    · cases hfirst
      exact .inl List.mem_cons_self
    · exact .inl (List.mem_cons_of_mem _ (mem_parts_of_mem_looked_arms harms))
  | loop initial condition afterthought body =>
    rw [looked] at h
    split at h
    · rename_i counting hcount
      obtain hheader | hbody := List.mem_append.mp h
      · exact Counting.part_of_mem_header hcount (mem_of_mem_map_place hheader)
      · exact .inl (by simp [parts, mem_of_mem_looked_body hbody])
    · obtain hheader | hbody := List.mem_append.mp h
      · exact .inl (List.mem_append_left _ (mem_of_mem_map_place hheader))
      · exact .inl (List.mem_append_right _ (mem_of_mem_looked_body hbody))
  | number | string | accessor | «break» | «continue» | discard | uniform | varying | function
  | unknown => cases h
  | chain | operator | ternary | call | «return» => exact .inl (mem_of_mem_map_place h)

theorem sizeOf_looked {context place : Context} {node part : Node}
    (h : (place, part) ∈ node.looked context) : sizeOf part < sizeOf node := by
  obtain hpart | ⟨outer, houter, hpart⟩ := part_of_mem_looked h
  · exact sizeOf_part hpart
  · exact Nat.lt_trans (sizeOf_part hpart) (sizeOf_part houter)

/-- What a node does to names, in the order in which it does it. -/
def uses (context : Context) (node : Node) : List NameUse :=
  ((node.looked context).attach.flatMap fun ⟨(place, part), _⟩ => part.uses place) ++
    node.ownUses context
termination_by sizeOf node
decreasing_by exact sizeOf_looked (by assumption)

theorem uses_eq (context : Context) (node : Node) :
    node.uses context =
      ((node.looked context).flatMap fun entry => entry.2.uses entry.1) ++
        node.ownUses context := by
  rw [uses]
  conv_rhs => rw [← List.attach_map_subtype_val (node.looked context), List.flatMap_map]

end Node

/-! ## The notes of a tree -/

/-- What a note says about a name; a problem says nothing. -/
def Note.use? : Note → Option NameUse
  | .mention name => some (.calls name)
  | .require name => some (.builds name)
  | .declare name => some (.introduces name)
  | .report _ => none

/-- What notes say about names. -/
def notedUses (notes : List Note) : List NameUse :=
  notes.filterMap Note.use?

/-- What the notes of nodes at their places say about names. -/
def lookedUses (entries : List (Context × Node)) : List NameUse :=
  entries.flatMap fun entry => notedUses (emit entry.1 entry.2).notes

section Lists

variable (notes others : List Note) (entry : Context × Node)
  (entries further : List (Context × Node))

@[simp]
theorem notedUses_append : notedUses (notes ++ others) = notedUses notes ++ notedUses others :=
  List.filterMap_append

@[simp]
theorem notedUses_nil : notedUses [] = [] :=
  rfl

@[simp]
theorem notedUses_mention (name : String) :
    notedUses (.mention name :: notes) = .calls name :: notedUses notes :=
  rfl

@[simp]
theorem notedUses_require (name : String) :
    notedUses (.require name :: notes) = .builds name :: notedUses notes :=
  rfl

theorem notedUses_mentions (names : List String) :
    notedUses (names.map .mention) = names.map .calls := by
  induction names with
  | nil => rfl
  | cons name names ih => rw [List.map_cons, notedUses_mention, ih, List.map_cons]

theorem notedUses_allNotes {α : Type} (items : List α) (f : α → Fragment) :
    notedUses (Fragment.allNotes (items.map f)) =
      items.flatMap fun item => notedUses (f item).notes := by
  rw [notedUses, Fragment.allNotes, List.flatMap_map, List.filterMap_flatMap]
  rfl

@[simp]
theorem lookedUses_nil : lookedUses [] = [] :=
  rfl

@[simp]
theorem lookedUses_cons :
    lookedUses (entry :: entries) =
      notedUses (emit entry.1 entry.2).notes ++ lookedUses entries :=
  List.flatMap_cons

@[simp]
theorem lookedUses_append :
    lookedUses (entries ++ further) = lookedUses entries ++ lookedUses further :=
  List.flatMap_append

theorem lookedUses_flatMap {α : Type} (items : List α) (f : α → List (Context × Node)) :
    lookedUses (items.flatMap f) = items.flatMap fun item => lookedUses (f item) :=
  List.flatMap_assoc

@[simp]
theorem lookedUses_map (context : Context) (nodes : List Node) :
    lookedUses (nodes.map (context, ·)) =
      nodes.flatMap fun node => notedUses (emit context node).notes :=
  List.flatMap_map ..

end Lists

section Forms

theorem notedUses_binary (op : BinaryOp) (left right : Fragment) :
    notedUses (Form.binary op left right).notes =
      notedUses left.notes ++ notedUses right.notes ++
        if startsLiteral left.text && !startsLiteral right.text then [.calls op.method]
        else [] := by
  unfold Form.binary
  by_cases hleft : startsLiteral left.text
  · by_cases hright : startsLiteral right.text <;> simp [hleft, hright]
  · split_ifs <;> simp_all

theorem notedUses_unary (op : UnaryOp) (trailing initializing : Bool) (operand : Fragment) :
    notedUses (Form.unary op trailing initializing operand).notes =
      notedUses operand.notes ++
        if startsLiteral operand.text then
          (Form.unaryMethod? op trailing initializing).toList.map .calls
        else [] := by
  unfold Form.unary
  cases Form.unaryMethod? op trailing initializing with
  | none => simp
  | some name => by_cases hliteral : startsLiteral operand.text <;> simp [hliteral]

theorem notedUses_call (name : String) (args : List Fragment) :
    notedUses (Form.call name args).notes =
      notedUses (Fragment.allNotes args) ++
        if SamplingCall.accepts name args.length then [] else [.calls name] := by
  have hchain := isSome_sampleChain?_eq_accepts name (Fragment.texts args)
  rw [Fragment.texts, List.length_map, ← Fragment.texts] at hchain
  rw [Form.call, ← hchain]
  cases sampleChain? name (Fragment.texts args) <;> simp

theorem notedUses_uniform (reference : Bool) (name type : String) :
    notedUses (Form.uniform reference name type).notes =
      [.introduces name, .calls (uniformConstructor reference type)] := by
  unfold Form.uniform Form.uniformValue uniformConstructor
  cases reference <;> cases Form.resource? type <;> rfl

end Forms

section Parts

variable (context : Context)

theorem notedUses_emitAll (nodes : List Node) :
    notedUses (Fragment.allNotes (nodes.map (emit context))) =
      lookedUses (nodes.map (context, ·)) := by
  rw [notedUses_allNotes, lookedUses_map]

theorem notedUses_optional (part : Option Node) :
    notedUses (((part.map (emit context)).map Fragment.notes).getD []) =
      lookedUses (part.toList.map (context, ·)) := by
  cases part with
  | none => rfl
  | some node => simp

theorem notedUses_body (nodes : List Node) :
    notedUses (emitBody context nodes).notes = lookedUses (Body.looked context nodes) := by
  rw [notes_emitBody, Body.looked, lookedUses_map, notedUses, List.filterMap_flatMap]
  rfl

theorem notedUses_declarator (declarator : Declarator Node) :
    notedUses (emitDeclarator context declarator).notes =
      lookedUses (declarator.value.toList.map (context, ·)) := by
  obtain ⟨name, type, value, mutable⟩ := declarator
  rw [emitDeclarator, notes_binding, emitOptional_eq_map, notedUses_optional]

theorem notedUses_alternate (depth : Nat) (branch : Branch Node) :
    notedUses (Form.alternate depth (emitAlternate context branch)).notes =
      lookedUses (branch.looked context) := by
  obtain ⟨condition, body⟩ := branch
  have hbody := notedUses_body context.deeper body
  cases condition with
  | none => simpa [emitAlternate, Form.alternate, Branch.looked] using hbody
  | some condition => simp [emitAlternate, Form.alternate, Branch.looked, hbody]

theorem notedUses_arm (depth : Nat) (arm : Arm Node (List Node)) :
    notedUses (Form.arm depth (arm.map (emit context) (emitBody context.deeper))).notes =
      lookedUses (arm.looked context) := by
  have hbody (body : Option (List Node)) :
      notedUses (((body.map (emitBody context.deeper)).map Fragment.notes).getD []) =
        lookedUses (Body.looked context.deeper (body.getD [])) := by
    cases body with
    | none => rfl
    | some nodes => exact notedUses_body context.deeper nodes
  cases arm with
  | cases labels body closed =>
    have hopen : notedUses (if closed then [] else
        [.report (.unterminatedCases (Fragment.texts (labels.map (emit context))))]) = [] := by
      cases closed <;> rfl
    simp only [Arm.map, Form.arm, Arm.looked, Arm.labels, Arm.body?, notedUses_append,
      lookedUses_append, notedUses_emitAll, hopen, hbody, List.append_nil]
  | default body =>
    simp only [Arm.map, Form.arm, Arm.looked, Arm.labels, Arm.body?, List.map_nil,
      List.nil_append, hbody]

end Parts

namespace Node

/-- The notes of a node are those of the parts that it looks at, and its own ones. -/
theorem notedUses_step (context : Context) (node : Node) :
    notedUses (emit context node).notes =
      lookedUses (node.looked context) ++ node.ownUses context := by
  cases node with
  | number value kind => cases kind <;> rfl
  | string | accessor | «break» | «continue» | discard | varying | function | unknown => rfl
  | uniform name type =>
    rw [emit, notedUses_uniform]
    rfl
  | chain object elements =>
    have hlinks : notedUses (Fragment.allNotes (elements.map (emitElement context))) =
        lookedUses ((elements.map Element.value).map (context, ·)) := by
      rw [notedUses_allNotes, lookedUses_map, List.flatMap_map]
      simp only [notes_emitElement]
    simp [emit, Form.chain, hlinks, looked, ownUses, openParts, parts]
  | operator op left right =>
    simp [emit, notedUses_binary, looked, ownUses, openParts, parts]
  | unary op operand trailing =>
    obtain ⟨value, kind, rfl, -⟩ | ⟨hother, hemit⟩ := emit_unary_cases context op operand trailing
    · rfl
    · have hlooked : looked context (.unary op operand trailing) = [(context, operand)] := by
        cases operand with
        | number value kind => exact absurd rfl (hother value kind)
        | _ => rfl
      have hown : ownUses context (.unary op operand trailing) =
          if startsLiteral (emit context operand).text then
            (Form.unaryMethod? op trailing context.initializing).toList.map .calls
          else [] := by
        cases operand with
        | number value kind => exact absurd rfl (hother value kind)
        | _ => rfl
      rw [hemit, notedUses_unary, hlooked, hown, lookedUses_cons, lookedUses_nil, List.append_nil]
  | ternary condition left right =>
    simp [emit, Form.ternary, looked, ownUses, openParts, parts]
  | call name args =>
    rw [emit, emitAll_eq_map, notedUses_call, notedUses_emitAll, List.length_map]
    rfl
  | «return» value =>
    cases value with
    | none => rfl
    | some value => simp [emit, Form.returned, looked, ownUses, openParts, parts]
  | bindings declarators =>
    have hvalues : notedUses (Fragment.allNotes
        (declarators.map (emitDeclarator context.initializers))) =
        lookedUses ((declarators.filterMap Declarator.value).map (context.initializers, ·)) := by
      rw [notedUses_allNotes, List.filterMap_eq_flatMap_toList, List.map_flatMap, lookedUses_flatMap]
      simp only [notedUses_declarator]
    rw [emit, emitDeclarators_eq_map, Form.bindings, notedUses_append, hvalues,
      notedUses_mentions]
    rfl
  | conditional condition body alternates =>
    simp only [emit, Form.conditional, emitAll_eq_map, ofFragments_eq_emitBody,
      emitAlternates_eq_map, List.map_map, notedUses_append, notedUses_body, notedUses_allNotes,
      Function.comp_apply, notedUses_alternate]
    simp [looked, ownUses, lookedUses_flatMap]
  | switch discriminant cases =>
    simp only [emit, Form.switch, group_emitCases, List.map_map, notedUses_append,
      notedUses_allNotes, Function.comp_apply, notedUses_arm]
    simp [looked, ownUses, lookedUses_flatMap]
  | loop initial condition afterthought body =>
    cases hcount : Counting.ofLoop? initial condition afterthought with
    | none =>
      rw [emit_general hcount, looked, hcount]
      simp only [Form.generalLoop, notedUses_append, notedUses_optional, notedUses_body,
        List.map_append, lookedUses_append, ownUses]
      rfl
    | some counting =>
      rw [emit_counting hcount, looked, hcount]
      simp only [Form.countingLoop, Counting.map, Update.operand?_map, notedUses_append,
        notedUses_optional, notedUses_body, List.map_cons, lookedUses_cons, lookedUses_append,
        ownUses, List.cons_append, List.append_assoc]
      rfl

/-- What the notes of a node say about names is what the node does to names. -/
theorem notedUses_emit (context : Context) (node : Node) :
    notedUses (emit context node).notes = node.uses context := by
  induction node using parts_induction₂ generalizing context with
  | step node ih =>
    rw [notedUses_step, uses_eq, lookedUses]
    congr 1
    refine List.flatMap_congr ?_
    rintro ⟨place, part⟩ hlooked
    obtain hpart | ⟨outer, houter, hpart⟩ := part_of_mem_looked hlooked
    · exact (ih part hpart).1 place
    · exact (ih outer houter).2 part hpart place

end Node

/-! ## Programs -/

/-- What is done to a name, together with the names that are bound there. -/
structure PlacedUse where
  bound : List String
  use : NameUse

namespace PlacedUse

/-- What is done to names where the given ones are bound. -/
def place (bound : List String) (uses : List NameUse) : List PlacedUse :=
  uses.map (PlacedUse.mk bound)

end PlacedUse

/-- A top-level function is looked at under the names that it binds. It is introduced after its body,
and the last one of several overloads calls for the dispatcher. -/
def FunctionDecl.uses (options : Options) (overload : Option Overload)
    (function : FunctionDecl Node) : List PlacedUse :=
  PlacedUse.place function.boundNames
      (function.statements.flatMap
        (Node.uses ⟨options.reference, options.depth + 1, false, false⟩)) ++
    PlacedUse.place [] ([.builds "Fn", .introduces function.name] ++
      if closesOverloads overload then [.calls "overloadingFn"] else [])

/-- What a top-level statement does to names. -/
def Node.topUses (options : Options) (all earlier : List String) : Node → List PlacedUse
  | .function declaration => declaration.uses options (Overload.of? all earlier declaration.name)
  | node => PlacedUse.place [] (node.uses (Section.context options))

/-- What top-level statements do to names, one after the other. -/
def topUses (options : Options) (all : List String) :
    (earlier : List String) → List Node → List PlacedUse
  | _, [] => []
  | earlier, node :: rest =>
    node.topUses options all earlier ++ topUses options all (earlier ++ functionNames [node]) rest

namespace Program

/-- What a program does to names, in the order in which it does it. -/
def uses (program : Program) (options : Options) : List PlacedUse :=
  topUses options (functionNames program.body) [] program.body

/-- The notes of a program, in the order in which they are taken. -/
def notes (program : Program) (options : Options) : List PlacedNote :=
  (program.sections options).flatMap Section.notes

end Program

/-- What a placed note says about a name. -/
def PlacedNote.use? (placed : PlacedNote) : Option PlacedUse :=
  placed.note.use?.map (PlacedUse.mk placed.bound)

theorem filterMap_use?_place (bound : List String) (notes : List Note) :
    (PlacedNote.place bound notes).filterMap PlacedNote.use? =
      PlacedUse.place bound (notedUses notes) := by
  rw [PlacedNote.place, PlacedUse.place, notedUses, List.filterMap_map, List.map_filterMap]
  rfl

theorem notedUses_functionBody (options : Options) (function : FunctionDecl Node) :
    notedUses (function.emitBody options).notes =
      function.statements.flatMap
        (Node.uses ⟨options.reference, options.depth + 1, false, false⟩) := by
  have hkept : Body.kept false function.statements = function.statements := by
    refine List.filter_eq_self.mpr fun node _ => ?_
    cases node <;> rfl
  rw [FunctionDecl.emitBody, emitAll_eq_map, ofFragments_eq_emitBody, notedUses_body, Body.looked,
    lookedUses_map, hkept]
  exact List.flatMap_congr fun node _ => node.notedUses_emit _

theorem notedUses_ownNotes (function : FunctionDecl Node) (overload : Option Overload) :
    notedUses (function.ownNotes overload) =
      [.builds "Fn", .introduces function.name] ++
        if FunctionDecl.closesOverloads overload then [.calls "overloadingFn"] else [] := by
  unfold FunctionDecl.ownNotes
  split <;> rfl

theorem filterMap_use?_ofNode (options : Options) (all earlier : List String) (node : Node) :
    (Section.ofNode options all earlier node).notes.filterMap PlacedNote.use? =
      node.topUses options all earlier := by
  have hplain : (PlacedNote.place [] (emit (Section.context options) node).notes).filterMap
      PlacedNote.use? = PlacedUse.place [] (node.uses (Section.context options)) := by
    rw [filterMap_use?_place, Node.notedUses_emit]
  cases node with
  | function function =>
    rw [Section.ofNode, Section.ofFunction, List.filterMap_append, filterMap_use?_place,
      filterMap_use?_place, notedUses_functionBody, notedUses_ownNotes]
    rfl
  | _ => exact hplain

theorem filterMap_use?_sections (options : Options) (all earlier : List String)
    (previous : Option Node) (nodes : List Node) :
    ((sections options all earlier previous nodes).flatMap Section.notes).filterMap
      PlacedNote.use? = topUses options all earlier nodes := by
  induction nodes generalizing earlier previous with
  | nil => rfl
  | cons node rest ih =>
    rw [sections, List.flatMap_cons, List.filterMap_append, filterMap_use?_ofNode, ih, topUses]

/-- What the notes of a program say about names is what the program does to names. -/
theorem Program.filterMap_use?_notes (program : Program) (options : Options) :
    (program.notes options).filterMap PlacedNote.use? = program.uses options :=
  filterMap_use?_sections ..

end ShaderScript
