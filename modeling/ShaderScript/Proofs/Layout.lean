import ShaderScript.Proofs.Drawings
import ShaderScript.Proofs.Traces

/-!
# The layout of a tree

Every node is drawn, wherever it stands. The uniforms in its text are those of the nodes that are
shown in it, in the order of the text: a sampling call shows only the arguments it uses, the cases
of a switch may share a body and then show it twice, and a function that is not at the top level
shows nothing.
-/

namespace ShaderScript

/-! ## Nodes that are shown -/

theorem mem_of_mem_chainArgs? {α : Type} {name : String} {args used : List α}
    (h : chainArgs? name args = some used) {arg : α} (harg : arg ∈ used) : arg ∈ args := by
  obtain ⟨call, -, hused⟩ := Option.bind_eq_some_iff.mp h
  generalize call.modifier = modifier at hused
  unfold SampleModifier.used? at hused
  split at hused <;> cases hused <;> simp only [List.mem_cons, List.not_mem_nil] at harg ⊢ <;> tauto

theorem chainArgs?_map {α β : Type} (f : α → β) (name : String) (args : List α) :
    chainArgs? name (args.map f) = (chainArgs? name args).map (List.map f) := by
  unfold chainArgs?
  cases SamplingCall.ofName? name with
  | none => rfl
  | some call =>
    rcases args with _ | ⟨a, _ | ⟨b, _ | ⟨c, _ | ⟨d, rest⟩⟩⟩⟩ <;>
      cases call <;> rfl

namespace Node

/-- The nodes whose text stands in the text of a node, in the order of the text. -/
def shown : Node → List Node
  | .call name args => (chainArgs? name args).getD args
  | .switch discriminant cases =>
    discriminant :: (Branch.arms cases).flatMap fun arm => arm.labels ++ arm.body?.getD []
  | .loop initial condition afterthought body =>
    match Counting.ofLoop? initial condition afterthought with
    | some counting => counting.start :: counting.limit :: (counting.update.operand?.toList ++ body)
    | none => initial.toList ++ condition.toList ++ body ++ afterthought.toList
  | .function _ => []
  | node => node.parts

theorem part_of_mem_shown_loop {initial condition afterthought : Option Node} {body : List Node}
    {inner : Node} (h : inner ∈ (loop initial condition afterthought body).shown) :
    inner ∈ (loop initial condition afterthought body).parts ∨
      ∃ part ∈ (loop initial condition afterthought body).parts, inner ∈ part.parts := by
  simp only [shown] at h
  split at h
  · rename_i counting hcount
    rw [← List.cons_append, ← List.cons_append] at h
    obtain hheader | hbody := List.mem_append.mp h
    · exact Counting.part_of_mem_header hcount hheader
    · exact .inl (by simp [parts, hbody])
  · left
    simp only [parts, List.mem_append] at h ⊢
    tauto

/-- Nothing is shown but parts, and parts of the header of a counting loop. -/
theorem part_of_mem_shown {node inner : Node} (h : inner ∈ node.shown) :
    inner ∈ node.parts ∨ ∃ part ∈ node.parts, inner ∈ part.parts := by
  cases node with
  | function => cases h
  | call name args =>
    left
    simp only [shown] at h
    cases hargs : chainArgs? name args with
    | none =>
      rw [hargs] at h
      exact h
    | some used =>
      rw [hargs] at h
      exact mem_of_mem_chainArgs? hargs h
  | switch discriminant cases =>
    left
    simp only [shown, List.mem_cons, List.mem_flatMap, List.mem_append] at h
    obtain rfl | ⟨arm, harm, hlabel | hbody⟩ := h
    · exact List.mem_cons_self
    · exact List.mem_cons_of_mem _ (Branch.label_mem_parts harm hlabel)
    · cases hnodes : arm.body? with
      | none => simp [hnodes] at hbody
      | some nodes =>
        rw [hnodes] at hbody
        exact List.mem_cons_of_mem _ (Branch.body_mem_parts harm hnodes hbody)
  | loop => exact part_of_mem_shown_loop h
  | _ => exact .inl h

theorem sizeOf_shown {node inner : Node} (h : inner ∈ node.shown) : sizeOf inner < sizeOf node := by
  obtain hpart | ⟨part, hpart, hinner⟩ := part_of_mem_shown h
  · exact sizeOf_part hpart
  · exact Nat.lt_trans (sizeOf_part hinner) (sizeOf_part hpart)

theorem contains_of_mem_shown {node inner : Node} (h : inner ∈ node.shown) :
    node.Contains inner := by
  obtain hpart | ⟨part, hpart, hinner⟩ := part_of_mem_shown h
  · exact .single hpart
  · exact .head hpart (.single hinner)

/-- The name and the type of a uniform. -/
def ownUniforms : Node → List (String × String)
  | .uniform name type => [(name, type)]
  | _ => []

/-- The uniforms whose declarations stand in the text of a node, in the order of the text. -/
def shownUniforms (node : Node) : List (String × String) :=
  node.ownUniforms ++ node.shown.attach.flatMap fun ⟨inner, _⟩ => inner.shownUniforms
termination_by sizeOf node
decreasing_by exact sizeOf_shown (by assumption)

theorem shownUniforms_eq (node : Node) :
    node.shownUniforms = node.ownUniforms ++ node.shown.flatMap shownUniforms := by
  rw [shownUniforms]
  simp

theorem contains_of_mem_shownUniforms {node : Node} {name type : String}
    (h : (name, type) ∈ node.shownUniforms) : node.Contains (.uniform name type) := by
  rw [shownUniforms_eq, List.mem_append, List.mem_flatMap] at h
  obtain hown | ⟨inner, hinner, hmem⟩ := h
  · cases node with
    | uniform =>
      obtain ⟨rfl, rfl⟩ := Prod.mk.inj (List.mem_singleton.mp hown)
      exact .refl
    | _ => cases hown
  · have := sizeOf_shown hinner
    exact (contains_of_mem_shown hinner).trans (contains_of_mem_shownUniforms hmem)
termination_by sizeOf node

/-- All strings in the node are of one kind, and all uniforms of another. -/
structure Fits (P : String → Prop) (U : String × String → Prop) (node : Node) : Prop where
  strings : ∀ text ∈ node.strings, P text
  uniforms : ∀ name type, node.Contains (.uniform name type) → U (name, type)

namespace Fits

variable {P : String → Prop} {U : String × String → Prop} {node : Node}

theorem own (h : node.Fits P U) {text : String} (hmem : text ∈ node.ownStrings) : P text :=
  h.strings text (mem_strings.mpr (.inl hmem))

theorem part (h : node.Fits P U) {part : Node} (hmem : part ∈ node.parts) : part.Fits P U where
  strings text htext := h.strings text (mem_strings.mpr (.inr ⟨part, hmem, htext⟩))
  uniforms name type huniform := h.uniforms name type (.head hmem huniform)

theorem of_parts (hown : ∀ text ∈ node.ownStrings, P text)
    (huniforms : ∀ pair ∈ node.ownUniforms, U pair)
    (hparts : ∀ part ∈ node.parts, part.Fits P U) : node.Fits P U where
  strings text htext := by
    obtain ht | ⟨part, hp, ht⟩ := mem_strings.mp htext
    · exact hown text ht
    · exact (hparts part hp).strings text ht
  uniforms name type huniform := by
    obtain rfl | ⟨part, hp, hinner⟩ := Relation.ReflTransGen.cases_head huniform
    · exact huniforms (name, type) List.mem_cons_self
    · exact (hparts part hp).uniforms name type hinner

theorem shown (h : node.Fits P U) : ∀ pair ∈ node.shownUniforms, U pair :=
  fun ⟨name, type⟩ hpair => h.uniforms name type (contains_of_mem_shownUniforms hpair)

end Fits

end Node

/-! ## Drawn nodes -/

/-- The place as it is in a document that is laid out by the view. -/
def Context.seen (context : Context) (view : View) : Context :=
  { context with reference := view.reference, depth := view.margin + context.depth }

namespace Context

variable (context : Context) (view : View)

@[simp]
theorem depth_seen : (context.seen view).depth = view.margin + context.depth :=
  rfl

@[simp]
theorem reference_seen : (context.seen view).reference = view.reference :=
  rfl

@[simp]
theorem initializing_seen : (context.seen view).initializing = context.initializing :=
  rfl

@[simp]
theorem deeper_seen : (context.seen view).deeper = context.deeper.seen view :=
  rfl

@[simp]
theorem outsideCase_seen : (context.seen view).outsideCase = context.outsideCase.seen view :=
  rfl

@[simp]
theorem cases_seen : (context.seen view).cases = context.cases.seen view :=
  rfl

@[simp]
theorem initializers_seen : (context.seen view).initializers = context.initializers.seen view :=
  rfl

end Context

/-- The node is drawn, wherever it stands. -/
def Node.Draws (P : String → Prop) (U : String × String → Prop) (node : Node) : Prop :=
  ∀ context : Context, Drawn P U node.shownUniforms fun view => emit (context.seen view) node

section Nodes

variable {P : String → Prop} {U : String × String → Prop}

theorem map_view {α β : Type} (f : α → View → β) (items : List α) (view : View) :
    (items.map f).map (· view) = items.map fun item => f item view := by
  simp

theorem map_optional_view {α β : Type} (f : α → View → β) (part : Option α) (view : View) :
    (part.map f).map (· view) = part.map fun item => f item view := by
  cases part <;> rfl

theorem drawn_nodes {nodes : List Node} (h : ∀ node ∈ nodes, node.Draws P U) (context : Context) :
    List.Forall₂ (Drawn P U) (nodes.map Node.shownUniforms)
      (nodes.map fun node view => emit (context.seen view) node) :=
  forall₂_map fun node hn => h node hn context

theorem drawn_optional {part : Option Node} (h : ∀ node ∈ part, node.Draws P U)
    (context : Context) :
    DrawnOptional P U (part.toList.flatMap Node.shownUniforms)
      (part.map fun node view => emit (context.seen view) node) := by
  cases part with
  | none => exact .none
  | some node => simpa using DrawnOptional.some (h node rfl context)

/-- The statements that are left out of a body have no uniforms. -/
theorem flatMap_kept (inCase : Bool) (nodes : List Node) :
    (Body.kept inCase nodes).flatMap Node.shownUniforms = nodes.flatMap Node.shownUniforms := by
  induction nodes with
  | nil => rfl
  | cons node nodes ih =>
    have hdropped : Body.isDropped inCase node → node.shownUniforms = [] := by
      cases node with
      | «break» => simp [Node.shownUniforms_eq, Node.ownUniforms, Node.shown, Node.parts]
      | _ =>
        intro hbreak
        cases hbreak
    simp only [Body.kept] at ih ⊢
    cases h : Body.isDropped inCase node with
    | true => simpa [h, hdropped h] using ih
    | false => simpa [h] using ih

theorem drawn_emitBody {nodes : List Node} (h : ∀ node ∈ nodes, node.Draws P U)
    (context : Context) :
    DrawnBody P U (nodes.flatMap Node.shownUniforms) fun view =>
      emitBody (context.deeper.seen view) nodes := by
  have hkept : ∀ node ∈ Body.kept context.inCase nodes,
      Drawn P U node.shownUniforms fun view => emit (context.deeper.seen view) node :=
    fun node hn => h node (List.mem_of_mem_filter hn) context.deeper
  rw [← flatMap_kept context.inCase]
  simp only [emitBody, Body.ofFragments, Body.assemble_map]
  exact ⟨filled_lines context.depth hkept, taken_flatMap hkept⟩

theorem drawn_emitDeclarator {declarator : Declarator Node} (hname : P declarator.name)
    (htype : P declarator.type) (h : ∀ value ∈ declarator.value, value.Draws P U)
    (context : Context) :
    Drawn P U (declarator.value.toList.flatMap Node.shownUniforms) fun view =>
      emitDeclarator (context.seen view) declarator := by
  obtain ⟨name, type, value, mutable⟩ := declarator
  have hbinding := drawn_binding hname htype (drawn_optional h context)
    (value.any (Node.isCallOf type)) mutable
  simp only [emitDeclarator, emitOptional_eq_map]
  simpa only [map_optional_view] using hbinding

theorem drawn_emitAlternate {branch : Branch Node} (h : ∀ part ∈ branch.parts, part.Draws P U)
    (context : Context) :
    Drawn P U (branch.parts.flatMap Node.shownUniforms) fun view =>
      Form.alternate (view.margin + context.depth) (emitAlternate (context.seen view) branch) := by
  obtain ⟨condition, body⟩ := branch
  have hcondition := drawn_optional
    (fun node hn => h node (List.mem_append_left _ (Option.mem_toList.mpr hn))) context
  have hbody := drawn_emitBody (fun node hn => h node (List.mem_append_right _ hn)) context
  have hlink := drawn_alternate context.depth hcondition hbody
  simp only [emitAlternate, emitOptional_eq_map, emitAll_eq_map, ofFragments_eq_emitBody,
    Context.deeper_seen]
  simpa only [map_optional_view, Branch.parts, List.flatMap_append] using hlink

theorem drawn_emitArm {arm : Arm Node (List Node)}
    (hlabels : ∀ label ∈ arm.labels, label.Draws P U ∧ ∀ pair ∈ label.shownUniforms, U pair)
    (hbody : ∀ nodes ∈ arm.body?, ∀ node ∈ nodes, node.Draws P U) (depth : Nat)
    (context : Context) :
    Drawn P U ((arm.labels ++ arm.body?.getD []).flatMap Node.shownUniforms) fun view =>
      Form.arm (view.margin + depth)
        (arm.map (emit (context.seen view)) (emitBody (context.deeper.seen view))) := by
  let drawing : Arm (View → Fragment) (View → Fragment) :=
    arm.map (fun label view => emit (context.seen view) label)
      (fun nodes view => emitBody (context.deeper.seen view) nodes)
  have hdrawing (view : View) : drawing.map (· view) (· view) =
      arm.map (emit (context.seen view)) (emitBody (context.deeper.seen view)) := by
    cases arm <;> simp [drawing, Arm.map, Function.comp_def]
  have hdrawn : List.Forall₂ (Drawn P U) (arm.labels.map Node.shownUniforms) drawing.labels := by
    rw [Arm.labels_map]
    exact drawn_nodes (fun label hl => (hlabels label hl).1) context
  have huniforms : ∀ pair ∈ (arm.labels.map Node.shownUniforms).flatten, U pair := by
    intro pair hpair
    rw [← List.flatMap_def] at hpair
    obtain ⟨label, hlabel, hmem⟩ := List.mem_flatMap.mp hpair
    exact (hlabels label hlabel).2 pair hmem
  have hfilled : DrawnBody P U ((arm.body?.getD []).flatMap Node.shownUniforms) fun view =>
      (drawing.body?.map (· view)).getD (.plain "") := by
    rw [Arm.body?_map]
    cases hnodes : arm.body? with
    | none => exact ⟨.empty fun _ => rfl, .fixed []⟩
    | some nodes => exact drawn_emitBody (hbody nodes hnodes) context
  have harm := drawn_arm depth drawing hdrawn huniforms hfilled
  simpa only [hdrawing, List.flatMap_append, ← List.flatMap_def] using harm

theorem drawn_emitSwitch {discriminant : Node} {cases : List (Branch Node)}
    (h : discriminant.Draws P U)
    (hparts : ∀ part ∈ cases.flatMap Branch.parts,
      part.Draws P U ∧ ∀ pair ∈ part.shownUniforms, U pair) :
    (Node.switch discriminant cases).Draws P U := by
  intro context
  have harms : List.Forall₂ (Drawn P U) _ ((Branch.arms cases).map fun arm view =>
      Form.arm (view.margin + context.depth + 1)
        (arm.map (emit (context.cases.seen view)) (emitBody (context.cases.deeper.seen view)))) :=
    forall₂_map fun arm harm => drawn_emitArm
      (fun label hl => hparts label (Branch.label_mem_parts harm hl))
      (fun nodes hb node hn => (hparts node (Branch.body_mem_parts harm hb hn)).1)
      (context.depth + 1) context.cases
  have hmap (view : View) :
      (Arm.group [] (emitCases (context.cases.seen view) cases)).map
          (Form.arm (view.margin + context.depth + 1)) =
        ((Branch.arms cases).map fun arm view => Form.arm (view.margin + context.depth + 1)
          (arm.map (emit (context.cases.seen view))
            (emitBody (context.cases.deeper.seen view)))).map (· view) := by
    rw [group_emitCases]
    simp [Function.comp_def]
  have hswitch := drawn_switch context.depth (h context) harms hmap
  simp only [emit, Context.depth_seen, Context.cases_seen]
  rw [Node.shownUniforms_eq]
  simpa only [Node.ownUniforms, Node.shown, List.nil_append, List.flatMap_cons, List.flatMap_assoc,
    ← List.flatMap_def] using hswitch

/-- What a counting loop shows of its afterthought. -/
theorem drawn_update {counter : String} {last : Node} {update : Update Node}
    (hsteps : Counting.Steps counter last update) (hlast : last.Draws P U)
    (hparts : ∀ part ∈ last.parts, part.Draws P U) (context : Context) :
    DrawnOptional P U (update.operand?.toList.flatMap Node.shownUniforms)
      (update.map fun node view => emit (context.seen view) node).operand? := by
  rw [Update.operand?_map]
  refine drawn_optional (fun node hn => ?_) context
  obtain rfl | hpart := hsteps.operand hn
  · exact hlast
  · exact hparts node hpart

theorem drawn_emitLoop {initial condition afterthought : Option Node} {body : List Node}
    (hfits : (Node.loop initial condition afterthought body).Fits P U)
    (h : ∀ part ∈ (Node.loop initial condition afterthought body).parts,
      part.Draws P U ∧ ∀ inner ∈ part.parts, inner.Draws P U) :
    (Node.loop initial condition afterthought body).Draws P U := by
  intro context
  have hbody : ∀ node ∈ body, node.Draws P U :=
    fun node hn => (h node (by simp [Node.parts, hn])).1
  rw [Node.shownUniforms_eq]
  cases hcount : Counting.ofLoop? initial condition afterthought with
  | none =>
    have hoptional (part : Option Node)
        (hp : ∀ node ∈ part, node ∈ (Node.loop initial condition afterthought body).parts) :=
      drawn_optional (fun node hn => (h node (hp node hn)).1) context
    have hloop := drawn_generalLoop context.depth
      (hoptional initial (by simp +contextual [Node.parts]))
      (hoptional condition (by simp +contextual [Node.parts]))
      (hoptional afterthought (by simp +contextual [Node.parts]))
      (drawn_emitBody hbody context.outsideCase.deeper)
    simp only [map_optional_view] at hloop
    simp only [emit_general hcount]
    simpa [Node.ownUniforms, Node.shown, hcount] using hloop
  | some counting =>
    -- Name and type of the counter are strings of its declaration.
    obtain ⟨mutable, last, rfl, rfl, -, rfl, hsteps⟩ := Counting.shape_of_ofLoop? hcount
    let first := Node.bindings [⟨counting.name, counting.type, some counting.start, mutable⟩]
    let test := Node.operator counting.comparison (.accessor counting.name) counting.limit
    have hfirst : first ∈ (Node.loop (some first) (some test) (some last) body).parts := by
      simp [Node.parts]
    have htest : test ∈ (Node.loop (some first) (some test) (some last) body).parts := by
      simp [Node.parts]
    have hlast := h last (by simp [Node.parts])
    have hcounter := hfits.part hfirst
    let drawing : Counting (View → Fragment) :=
      counting.map fun node view => emit (context.seen view) node
    have hdrawing (view : View) :
        drawing.map (· view) = counting.map (emit (context.seen view)) := by
      obtain ⟨name, type, start, comparison, limit, update⟩ := counting
      cases update <;> rfl
    have hname : P drawing.name :=
      hcounter.own (by simp [first, drawing, Node.ownStrings, Counting.map])
    have htype : P drawing.type :=
      hcounter.own (by simp [first, drawing, Node.ownStrings, Counting.map])
    have hloop := drawn_countingLoop context.depth hname htype
      ((h first hfirst).2 counting.start (by simp [first, Node.parts]) context)
      ((h test htest).2 counting.limit (by simp [test, Node.parts]) context)
      (drawn_update hsteps hlast.1 hlast.2 context)
      (drawn_emitBody hbody context.outsideCase)
    simp only [emit_counting hcount]
    simpa [Node.ownUniforms, Node.shown, hcount, hdrawing] using hloop

end Nodes

open Node in
/-- Every node is drawn. -/
theorem Node.Fits.draws {P : String → Prop} {U : String × String → Prop} {node : Node}
    (h : node.Fits P U) : node.Draws P U := by
  induction node using Node.parts_induction₂ with
  | step node hparts =>
  have ih : ∀ part ∈ node.parts, part.Draws P U := fun part hp => (hparts part hp).1 (h.part hp)
  intro context
  rw [shownUniforms_eq]
  cases node with
  | number value kind =>
    simp only [emit]
    exact drawn_number (h.own List.mem_cons_self) kind
  | string value =>
    simp only [emit]
    exact ⟨(Laid.own (.inr (h.own List.mem_cons_self))).literal, .fixed []⟩
  | accessor property =>
    simp only [emit]
    exact ⟨.orUnknown (h.own List.mem_cons_self), .fixed _⟩
  | chain object elements =>
    have hlinks : List.Forall₂ (Drawn P U)
        (elements.map fun element => element.value.shownUniforms)
        (elements.map fun element view => emitElement (context.seen view) element) := by
      refine forall₂_map fun element he => ?_
      have hvalue := ih element.value (by simp [parts, List.mem_map_of_mem he]) context
      cases element with
      | member value =>
        simp only [emitElement]
        exact drawn_member hvalue
      | index value =>
        simp only [emitElement]
        exact drawn_index hvalue
    have hchain := drawn_chain (ih object (by simp [parts]) context) hlinks
    simp only [map_view] at hchain
    simpa [emit, ownUniforms, Node.shown, parts, ← List.flatMap_def, List.flatMap_map] using hchain
  | operator op left right =>
    have hbinary := drawn_binary op (ih left (by simp [parts]) context)
      (ih right (by simp [parts]) context)
    simpa [emit, ownUniforms, Node.shown, parts] using hbinary
  | unary op operand trailing =>
    have hoperand : operand ∈ (Node.unary op operand trailing).parts := List.mem_cons_self
    obtain ⟨value, kind, rfl, -⟩ | ⟨hnumber, -⟩ :=
      emit_unary_cases context op operand trailing
    · have hvalue : P value := (h.part hoperand).own List.mem_cons_self
      have hshown : (Node.number value kind).shownUniforms = [] := by
        simp [shownUniforms_eq, ownUniforms, Node.shown, parts]
      simpa [emit, ownUniforms, Node.shown, parts, hshown] using drawn_signedNumber op hvalue kind
    · have hemit (view : View) : emit (context.seen view) (.unary op operand trailing) =
          Form.unary op trailing context.initializing (emit (context.seen view) operand) := by
        obtain ⟨value, kind, hvalue, -⟩ | ⟨-, he⟩ :=
          emit_unary_cases (context.seen view) op operand trailing
        · exact absurd hvalue (hnumber value kind)
        · exact he
      have hunary := drawn_unary op trailing context.initializing (ih operand hoperand context)
      simpa [hemit, ownUniforms, Node.shown, parts] using hunary
  | ternary condition left right =>
    have hternary := drawn_ternary (ih condition (by simp [parts]) context)
      (ih left (by simp [parts]) context) (ih right (by simp [parts]) context)
    simpa [emit, ownUniforms, Node.shown, parts] using hternary
  | call name args =>
    have hcall := drawn_call (h.own List.mem_cons_self) (drawn_nodes ih context)
    simp only [map_view, parts, chainArgs?_map] at hcall
    simp only [emit, emitAll_eq_map, ownUniforms, Node.shown, List.nil_append]
    cases hargs : chainArgs? name args with
    | none => simpa [hargs, ← List.flatMap_def] using hcall
    | some used => simpa [hargs, ← List.flatMap_def] using hcall
  | «return» value =>
    have hreturned := drawn_returned (drawn_optional (fun node hn => ih node
      (Option.mem_toList.mpr hn)) context)
    simp only [map_optional_view] at hreturned
    simpa [emit, ownUniforms, Node.shown, parts] using hreturned
  | «break» | «continue» | discard =>
    simp only [emit]
    exact ⟨.fixed (by decide), .fixed _⟩
  | bindings declarators =>
    have hdrawn : List.Forall₂ (Drawn P U)
        (declarators.map fun declarator => declarator.value.toList.flatMap shownUniforms)
        (declarators.map fun declarator view =>
          emitDeclarator (context.initializers.seen view) declarator) := by
      refine forall₂_map fun declarator hd => ?_
      have hown : ∀ text ∈ [declarator.name, declarator.type], P text :=
        fun text ht => h.own (List.mem_flatMap.mpr ⟨declarator, hd, ht⟩)
      refine drawn_emitDeclarator (hown _ (by simp)) (hown _ (by simp)) (fun value hv => ?_) _
      exact ih value (List.mem_filterMap.mpr ⟨declarator, hd, hv⟩)
    have hbindings := drawn_bindings (declarators.map Declarator.type) hdrawn
    simp only [map_view] at hbindings
    simpa [emit, ownUniforms, Node.shown, parts, List.filterMap_eq_flatMap_toList,
      List.flatMap_assoc, ← List.flatMap_def] using hbindings
  | uniform name type =>
    have huniform := drawn_uniform (h.own (by simp [ownStrings])) (h.own (by simp [ownStrings]))
      (h.uniforms name type .refl)
    simpa [emit, ownUniforms, Node.shown, parts] using huniform
  | varying name type =>
    simp only [emit]
    exact drawn_varying (h.own (by simp [ownStrings])) (h.own (by simp [ownStrings]))
  | function declaration =>
    have hunknown : Unbroken Script.unknownStatement := by decide
    simp only [emit]
    exact ⟨.fixed hunknown, .fixed _⟩
  | conditional condition body alternates =>
    have hbody := drawn_emitBody
      (fun node (hn : node ∈ body) => ih node (by simp [parts, hn])) context
    have hlinks : List.Forall₂ (Drawn P U)
        (alternates.map fun branch => branch.parts.flatMap shownUniforms)
        (alternates.map fun branch view => Form.alternate (view.margin + context.depth)
          (emitAlternate (context.seen view) branch)) := by
      refine forall₂_map fun branch hb => drawn_emitAlternate (fun part hp => ih part ?_) context
      exact List.mem_cons_of_mem _ (List.mem_append_right _ (List.mem_flatMap.mpr ⟨branch, hb, hp⟩))
    have hmap (view : View) :
        (alternates.map (emitAlternate (context.seen view))).map
            (Form.alternate (view.margin + context.depth)) =
          (alternates.map fun branch view => Form.alternate (view.margin + context.depth)
            (emitAlternate (context.seen view) branch)).map (· view) := by
      simp [Function.comp_def]
    have hconditional := drawn_conditional context.depth (ih condition (by simp [parts]) context)
      hbody hlinks hmap
    simpa [emit, ownUniforms, Node.shown, parts, List.flatMap_assoc, ← List.flatMap_def]
      using hconditional
  | switch discriminant cases =>
    rw [← shownUniforms_eq]
    refine drawn_emitSwitch (ih discriminant List.mem_cons_self) (fun part hp => ?_) context
    have hpart := List.mem_cons_of_mem discriminant hp
    exact ⟨ih part hpart, (h.part hpart).shown⟩
  | loop initial condition afterthought body =>
    rw [← shownUniforms_eq]
    refine drawn_emitLoop h (fun part hp => ⟨ih part hp, fun inner hi => ?_⟩) context
    exact (hparts part hp).2 inner hi ((h.part hp).part hi)
  | unknown =>
    simp only [emit]
    exact ⟨.fixed (by decide), .fixed _⟩

end ShaderScript
