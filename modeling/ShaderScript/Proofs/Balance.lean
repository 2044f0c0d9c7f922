import ShaderScript.Proofs.Brackets
import ShaderScript.Proofs.Bindings

/-!
# Brackets in a document

As long as no string of a program has a bracket, brackets stand in the text of its document only
where the forms of text put them. So the text of every node is balanced, whatever its context, and
so is that of every function. Only the frame of a closure opens brackets that are closed elsewhere:
its header leaves two open, and its footer closes them.
-/

namespace ShaderScript

/-! ## Nodes -/

namespace Node

/-- No string in the node has a bracket. -/
def Bracketless (node : Node) : Prop :=
  ∀ text ∈ node.strings, ShaderScript.Bracketless text

variable {node : Node}

theorem bracketless_iff : node.Bracketless ↔
    (∀ text ∈ node.ownStrings, ShaderScript.Bracketless text) ∧
      ∀ part ∈ node.parts, part.Bracketless := by
  constructor
  · intro h
    exact ⟨fun text ht => h text (mem_strings.mpr (.inl ht)),
      fun part hp text ht => h text (mem_strings.mpr (.inr ⟨part, hp, ht⟩))⟩
  · rintro ⟨hown, hparts⟩ text htext
    obtain ht | ⟨part, hp, ht⟩ := mem_strings.mp htext
    · exact hown text ht
    · exact hparts part hp text ht

theorem Bracketless.own (h : node.Bracketless) {text : String} (hmem : text ∈ node.ownStrings) :
    Balanced text :=
  ((bracketless_iff.mp h).1 text hmem).balanced

theorem Bracketless.part (h : node.Bracketless) {part : Node} (hmem : part ∈ node.parts) :
    part.Bracketless :=
  (bracketless_iff.mp h).2 part hmem

theorem Bracketless.inner (h : node.Bracketless) {inner : Node} (hinner : node.Contains inner) :
    inner.Bracketless := by
  induction hinner with
  | refl => exact h
  | tail _ hpart ih => exact ih.part hpart

/-- The text of the node is balanced, wherever the node stands. -/
def EmitsBalanced (node : Node) : Prop :=
  ∀ context, Balanced (emit context node).text

end Node

section Nodes

theorem balanced_optional {part : Option Node} (h : ∀ node ∈ part, node.EmitsBalanced)
    (context : Context) : ∀ fragment ∈ part.map (emit context), Balanced fragment.text := by
  rw [Option.forall_mem_map]
  exact fun node hn => h node hn context

theorem balanced_emitBody {nodes : List Node} (h : ∀ node ∈ nodes, node.EmitsBalanced)
    (context : Context) : Balanced (emitBody context nodes).text := by
  rw [emitBody, Body.ofFragments, Body.assemble_map]
  refine .intercalate (fun _ => rfl) (Body.balanced_lines _ none ?_)
  rw [List.forall_mem_map]
  exact fun node hn => h node (List.mem_of_mem_filter hn) context

theorem balanced_emitDeclarator {declarator : Declarator Node} (hname : Balanced declarator.name)
    (htype : Balanced declarator.type) (h : ∀ value ∈ declarator.value, value.EmitsBalanced)
    (context : Context) : Balanced (emitDeclarator context declarator).text := by
  obtain ⟨name, type, value, mutable⟩ := declarator
  rw [emitDeclarator, emitOptional_eq_map]
  exact Form.balanced_binding hname htype (balanced_optional h context) _ mutable

theorem balanced_emitAlternate {branch : Branch Node}
    (h : ∀ part ∈ branch.parts, part.EmitsBalanced) (context : Context) :
    Balanced (Form.alternate context.depth (emitAlternate context branch)).text := by
  obtain ⟨condition, body⟩ := branch
  rw [emitAlternate, emitOptional_eq_map, emitAll_eq_map, ofFragments_eq_emitBody]
  refine Form.balanced_alternate _ (balanced_optional (fun node hn => h node ?_) context)
    (balanced_emitBody (fun node hn => h node ?_) _)
  · exact List.mem_append_left _ (Option.mem_toList.mpr hn)
  · exact List.mem_append_right _ hn

theorem balanced_emitSwitch {discriminant : Node} {cases : List (Branch Node)}
    (h : discriminant.EmitsBalanced)
    (hparts : ∀ part ∈ cases.flatMap Branch.parts, part.EmitsBalanced) :
    (Node.switch discriminant cases).EmitsBalanced := by
  intro context
  rw [emit]
  refine Form.balanced_switch _ (h context) ?_
  rw [group_emitCases, List.forall_mem_map]
  intro arm harm
  refine Form.balanced_arm _ ?_ ?_
  · rw [Arm.labels_map, List.forall_mem_map]
    exact fun label hl => hparts label (Branch.label_mem_parts harm hl) _
  · rw [Arm.body?_map, Option.forall_mem_map]
    exact fun nodes hb => balanced_emitBody
      (fun node hn => hparts node (Branch.body_mem_parts harm hb hn)) _

/-- What a counting loop shows of its afterthought. -/
theorem balanced_update {counter : String} {last : Node} {update : Update Node}
    (hsteps : Counting.Steps counter last update) (hlast : last.EmitsBalanced)
    (hparts : ∀ part ∈ last.parts, part.EmitsBalanced) (context : Context) :
    ∀ fragment ∈ (update.map (emit context)).operand?, Balanced fragment.text := by
  cases hsteps with
  | increment | decrement => exact fun _ => nofun
  | @step op amount h =>
    rintro fragment ⟨⟩
    exact hparts amount (by simp [Node.parts]) context
  | assign =>
    rintro fragment ⟨⟩
    exact hlast context

/-- A loop is a call with balanced arguments if it counts, and a block with balanced content if
not. -/
theorem emitLoop_cases {initial condition afterthought : Option Node} {body : List Node}
    (hstrings : (Node.loop initial condition afterthought body).Bracketless)
    (h : ∀ part ∈ (Node.loop initial condition afterthought body).parts,
      part.EmitsBalanced ∧ ∀ inner ∈ part.parts, inner.EmitsBalanced) (context : Context) :
    (∃ args, (emit context (.loop initial condition afterthought body)).text =
        Script.apply "Loop" args ∧ ∀ text ∈ args, Balanced text) ∨
      ∃ content, (emit context (.loop initial condition afterthought body)).text =
        Script.block context.depth content ∧ Balanced content := by
  have hbody : ∀ node ∈ body, node.EmitsBalanced :=
    fun node hn => (h node (by simp [Node.parts, hn])).1
  cases hcount : Counting.ofLoop? initial condition afterthought with
  | none =>
    have hoptional (part : Option Node)
        (hp : ∀ node ∈ part, node ∈ (Node.loop initial condition afterthought body).parts) :=
      balanced_optional (fun node hn => (h node (hp node hn)).1) context
    rw [emit_general hcount]
    refine .inr (Form.generalLoop_content _ (hoptional initial ?_) (hoptional condition ?_)
      (hoptional afterthought ?_) (balanced_emitBody hbody _))
    all_goals simp +contextual [Node.parts]
  | some counting =>
    -- Name and type of the counter are strings of its declaration.
    obtain ⟨mutable, last, rfl, rfl, -, rfl, hsteps⟩ := Counting.shape_of_ofLoop? hcount
    let first := Node.bindings [⟨counting.name, counting.type, some counting.start, mutable⟩]
    let test := Node.operator counting.comparison (.accessor counting.name) counting.limit
    have hfirst : first ∈ (Node.loop (some first) (some test) (some last) body).parts := by
      simp [Node.parts]
    have htest : test ∈ (Node.loop (some first) (some test) (some last) body).parts := by
      simp [Node.parts]
    have hlast := h last (by simp [Node.parts])
    have hcounter := hstrings.part hfirst
    rw [emit_counting hcount]
    refine .inl (Form.countingLoop_args _ (hcounter.own ?_) (hcounter.own ?_) ?_ ?_
      (balanced_update hsteps hlast.1 hlast.2 context) (balanced_emitBody hbody _))
    · simp [first, Node.ownStrings, Counting.map]
    · simp [first, Node.ownStrings, Counting.map]
    · exact (h first hfirst).2 counting.start (by simp [first, Node.parts]) context
    · exact (h test htest).2 counting.limit (by simp [test, Node.parts]) context

end Nodes

/-- A node without brackets in its strings has balanced text. -/
theorem emitsBalanced {node : Node} (h : node.Bracketless) : node.EmitsBalanced := by
  induction node using Node.parts_induction₂ with
  | step node hparts =>
  have ih : ∀ part ∈ node.parts, part.EmitsBalanced :=
    fun part hp => (hparts part hp).1 (h.part hp)
  intro context
  cases node with
  | number value kind =>
    rw [emit]
    exact Form.balanced_number (h.own List.mem_cons_self) kind
  | string value =>
    rw [emit]
    exact (h.own List.mem_cons_self).literal
  | accessor property =>
    rw [emit]
    exact (h.own List.mem_cons_self).orUnknown
  | chain object elements =>
    rw [emit, emitElements_eq_map]
    refine Form.balanced_chain (ih object (by simp [Node.parts]) context) ?_
    rw [List.forall_mem_map]
    intro element he
    have hvalue := ih _ (List.mem_cons_of_mem _ (List.mem_map_of_mem he)) context
    cases element <;> exact Form.balanced_link hvalue
  | operator op left right =>
    rw [emit]
    exact Form.balanced_binary op (ih left (by simp [Node.parts]) context)
      (ih right (by simp [Node.parts]) context)
  | unary op operand trailing =>
    have hoperand : operand ∈ (Node.unary op operand trailing).parts := List.mem_cons_self
    obtain ⟨value, kind, rfl, he⟩ | ⟨-, he⟩ := emit_unary_cases context op operand trailing
    · rw [he]
      exact Form.balanced_signedNumber op ((h.part hoperand).own List.mem_cons_self) kind
    · rw [he]
      exact Form.balanced_unary op trailing _ (ih operand hoperand context)
  | ternary condition left right =>
    rw [emit]
    refine .apply "select" (fun _ => rfl) ?_
    simp [ih condition (by simp [Node.parts]) context, ih left (by simp [Node.parts]) context,
      ih right (by simp [Node.parts]) context]
  | call name args =>
    rw [emit, emitAll_eq_map]
    refine Form.balanced_call (h.own List.mem_cons_self) ?_
    exact List.forall_mem_map.mpr fun arg ha => ih arg ha context
  | «return» value =>
    rw [emit, emitOptional_eq_map]
    refine Form.balanced_returned (balanced_optional (fun node hn => ih node ?_) context)
    simpa [Node.parts] using hn
  | «break» | «continue» | discard =>
    rw [emit]
    exact fun _ => rfl
  | bindings declarators =>
    rw [emit, emitDeclarators_eq_map]
    refine Form.balanced_bindings ?_ _
    rw [List.forall_mem_map]
    intro declarator hd
    have hown : ∀ text ∈ [declarator.name, declarator.type], Balanced text :=
      fun text ht => h.own (List.mem_flatMap.mpr ⟨declarator, hd, ht⟩)
    refine balanced_emitDeclarator (hown _ (by simp)) (hown _ (by simp)) ?_ _
    exact fun value hv => ih value (List.mem_filterMap.mpr ⟨declarator, hd, hv⟩)
  | uniform name type =>
    rw [emit]
    exact Form.balanced_uniform _ (h.own (by simp [Node.ownStrings]))
      (h.own (by simp [Node.ownStrings]))
  | varying name type =>
    rw [emit]
    exact Form.balanced_varying (h.own (by simp [Node.ownStrings]))
      (h.own (by simp [Node.ownStrings]))
  | function declaration =>
    rw [emit]
    exact .unknownStatement
  | conditional condition body alternates =>
    rw [emit, emitAlternates_eq_map, emitAll_eq_map, ofFragments_eq_emitBody]
    refine Form.balanced_conditional _ (ih condition (by simp [Node.parts]) context)
      (balanced_emitBody (fun node hn => ih node (by simp [Node.parts, hn])) _) ?_
    rw [List.forall_mem_map]
    refine fun branch hb => balanced_emitAlternate (fun part hp => ih part ?_) context
    exact List.mem_cons_of_mem _ (List.mem_append_right _ (List.mem_flatMap.mpr ⟨branch, hb, hp⟩))
  | switch discriminant cases =>
    exact balanced_emitSwitch (ih discriminant List.mem_cons_self)
      (fun part hp => ih part (List.mem_cons_of_mem _ hp)) context
  | loop initial condition afterthought body =>
    have hinner : ∀ part ∈ (Node.loop initial condition afterthought body).parts,
        part.EmitsBalanced ∧ ∀ inner ∈ part.parts, inner.EmitsBalanced :=
      fun part hp =>
        ⟨ih part hp, fun inner hi => (hparts part hp).2 inner hi ((h.part hp).part hi)⟩
    obtain ⟨args, htext, hargs⟩ | ⟨content, htext, hcontent⟩ := emitLoop_cases h hinner context
    · rw [htext]
      exact .apply "Loop" (fun _ => rfl) hargs
    · rw [htext]
      exact hcontent.block _
  | unknown =>
    rw [emit]
    exact .unknownStatement

/-! ## Functions -/

theorem balanced_memberName {name : String} (h : Balanced name) (index : Nat) :
    Balanced (Overload.memberName name index) := by
  have hline : Balanced "_" := fun _ => rfl
  have hnumber : Bracketless (toString index) := by
    intro c hbracket hdigit
    rw [Nat.toString_eq_repr, Nat.toList_repr] at hdigit
    have hdecimal : c.isDigit := Nat.isDigit_of_mem_toDigits (by decide) (by decide) hdigit
    have hnone : ∀ c ∈ brackets, c.isDigit = false := by simp [brackets]
    simp [hnone c hbracket] at hdecimal
  exact (h.append hline).append hnumber.balanced

theorem bracketless_inputName {parameter : Parameter} (h : Bracketless parameter.name) :
    Bracketless parameter.inputName := by
  unfold Parameter.inputName
  split
  · have hsuffix : Bracketless immutableSuffix := by decide
    intro c hbracket hc
    rw [String.toList_append, List.mem_append] at hc
    exact hc.elim (h c hbracket) (hsuffix c hbracket)
  · exact h

theorem bracketless_copy {parameter : Parameter} (hname : Bracketless parameter.name)
    (htype : Bracketless parameter.type) : parameter.copy.Bracketless := by
  have hinput : (Node.accessor parameter.inputName).Bracketless := by
    rw [Node.bracketless_iff]
    exact ⟨List.forall_mem_singleton.mpr (bracketless_inputName hname), List.forall_mem_nil _⟩
  rw [Parameter.copy, Node.bracketless_iff]
  refine ⟨?_, List.forall_mem_singleton.mpr hinput⟩
  simp [Node.ownStrings, hname, htype]

namespace FunctionDecl

variable {declaration : FunctionDecl Node}

/-- The strings of the parameters of a function without brackets. -/
theorem bracketless_parameter (h : (Node.function declaration).Bracketless) {parameter : Parameter}
    (hmem : parameter ∈ declaration.params) :
    Bracketless parameter.name ∧ Bracketless parameter.type := by
  have hown : ∀ text ∈ [parameter.name, parameter.type], Bracketless text := by
    intro text htext
    refine (Node.bracketless_iff.mp h).1 text ?_
    exact List.mem_cons_of_mem _ (List.mem_cons_of_mem _
      (List.mem_flatMap.mpr ⟨parameter, hmem, htext⟩))
  exact ⟨hown _ (by simp), hown _ (by simp)⟩

theorem bracketless_statements (h : (Node.function declaration).Bracketless) :
    ∀ node ∈ declaration.statements, node.Bracketless := by
  rw [statements, List.forall_mem_append, List.forall_mem_map]
  constructor
  · intro parameter hp
    obtain ⟨hname, htype⟩ := bracketless_parameter h (List.mem_of_mem_filter hp)
    exact bracketless_copy hname htype
  · exact fun node hn => h.part hn

theorem balanced_emitBody (h : (Node.function declaration).Bracketless) (options : Options) :
    Balanced (declaration.emitBody options).text := by
  rw [emitBody, emitAll_eq_map, ofFragments_eq_emitBody]
  exact ShaderScript.balanced_emitBody
    (fun node hn => emitsBalanced (bracketless_statements h node hn)) _

theorem balanced_inputList (h : (Node.function declaration).Bracketless) :
    Balanced declaration.inputList := by
  unfold inputList
  split
  · exact fun _ => rfl
  · refine .between [')'] (fun _ => rfl) (.bracketed ?_) fun _ => rfl
    rw [List.forall_mem_map]
    intro parameter hp
    exact (bracketless_inputName (bracketless_parameter h hp).1).balanced

theorem balanced_layoutText (h : (Node.function declaration).Bracketless) :
    Balanced declaration.layoutText := by
  have hcomma : Balanced " , " := fun _ => rfl
  have hreturn : Balanced "return" := fun _ => rfl
  have htype : Balanced declaration.type :=
    h.own (List.mem_cons_of_mem _ List.mem_cons_self)
  unfold layoutText
  split
  · refine hcomma.append (.braced ?_)
    rw [List.forall_mem_append, List.forall_mem_map, List.forall_mem_singleton]
    refine ⟨fun parameter hp => ?_, hreturn.entry htype.literal⟩
    obtain ⟨hname, htype⟩ := bracketless_parameter h hp
    exact hname.balanced.entry htype.balanced.literal
  · exact fun _ => rfl

theorem balanced_lead (options : Options) : Balanced options.lead := by
  unfold Options.lead
  split <;> exact fun _ => rfl

theorem balanced_constantText (h : (Node.function declaration).Bracketless) (options : Options)
    (overload : Option Overload) {body : String} (hbody : Balanced body) :
    Balanced (declaration.constantText options overload body) := by
  have hconst : Balanced "const " := fun _ => rfl
  have hname : Balanced (declaration.constantName overload) := by
    cases overload with
    | none => exact h.own List.mem_cons_self
    | some overload => exact balanced_memberName (h.own List.mem_cons_self) _
  have hstart : Nests [] " = /*#__PURE__*/ Fn( " [')'] := fun _ => rfl
  have hcallback := Balanced.callback (balanced_inputList h) options.depth hbody
  have hopened := Nests.append (((balanced_lead options).append hconst).append hname) hstart
  refine ((hopened.append (hcallback.nests _)).append ((balanced_layoutText h).nests _)).append ?_
  exact fun _ => rfl

theorem balanced_dispatcherText (h : (Node.function declaration).Bracketless) (options : Options)
    (size : Nat) : Balanced (declaration.dispatcherText options size) := by
  have hconst : Balanced "const " := fun _ => rfl
  have hpure : Balanced " = /*#__PURE__*/ " := fun _ => rfl
  have hend : Balanced ";\n" := fun _ => rfl
  have hname : Balanced declaration.name := h.own List.mem_cons_self
  have hmembers : Balanced (Script.bracketed
      ((List.range size).map (Overload.memberName declaration.name))) := by
    refine .bracketed ?_
    rw [List.forall_mem_map]
    exact fun index _ => balanced_memberName hname index
  have hcall : Balanced (Script.apply "overloadingFn" [_]) :=
    .apply "overloadingFn" (fun _ => rfl) (List.forall_mem_singleton.mpr hmembers)
  exact (((((balanced_lead options).append hconst).append hname).append hpure).append hcall).append
    hend

theorem balanced_text (h : (Node.function declaration).Bracketless) (options : Options)
    (overload : Option Overload) {body : String} (hbody : Balanced body) :
    Balanced (declaration.text options overload body) := by
  have hline : Balanced "\n" := fun _ => rfl
  have hconstant := balanced_constantText h options overload hbody
  unfold text
  cases overload with
  | none => exact hconstant
  | some overload =>
    simp only
    split
    · exact (hconstant.append hline).append (balanced_dispatcherText h options _)
    · exact hconstant

end FunctionDecl

/-! ## Documents -/

theorem balanced_section (options : Options) (all earlier : List String) {node : Node}
    (h : node.Bracketless) : Balanced (Section.ofNode options all earlier node).text := by
  have hend : Balanced ";\n" := fun _ => rfl
  have hplain := (emitsBalanced h (Section.context options)).append hend
  cases node with
  | function declaration =>
    exact FunctionDecl.balanced_text h options _ (FunctionDecl.balanced_emitBody h options)
  | _ => exact hplain

theorem balanced_sections (options : Options) (all earlier : List String) (previous : Option Node)
    {nodes : List Node} (h : ∀ node ∈ nodes, node.Bracketless) :
    ∀ part ∈ sections options all earlier previous nodes, Balanced part.text := by
  induction nodes generalizing earlier previous with
  | nil => exact List.forall_mem_nil _
  | cons node nodes ih =>
    obtain ⟨hnode, hnodes⟩ := List.forall_mem_cons.mp h
    rw [sections, List.forall_mem_cons]
    refine ⟨?_, ih _ _ hnodes⟩
    exact ((Body.balanced_gap previous node).append (.tabs _)).append
      (balanced_section options all earlier hnode)

theorem Program.balanced_imports (program : Program) (options : Options) :
    ∀ name ∈ (program.document options).scope.imports, Balanced name := by
  intro name hname
  refine Bracketless.balanced fun c hbracket hc => ?_
  have halpha := Library.isAlphanum_of_isSymbol (isSymbol_of_mem_imports hname) c hc
  have hnone : ∀ c ∈ brackets, c.isAlphanum = false := by simp [brackets]
  simp [hnone c hbracket] at halpha

theorem Node.Bracketless.declared {node : Node} {name : String} (h : node.Bracketless)
    (hbears : node.Bears (.declared name)) : Balanced name := by
  obtain ⟨inner, hsees, hshows⟩ := hbears
  have hinner := h.inner (contains_of_sees hsees)
  cases inner with
  | uniform | varying =>
    cases hshows
    exact hinner.own List.mem_cons_self
  | _ => simp [Shows] at hshows

/-- A global name is the name of a uniform, a varying or a function. -/
theorem Program.balanced_globals {program : Program} (options : Options)
    (h : ∀ node ∈ program.body, node.Bracketless) :
    ∀ name ∈ (program.document options).scope.globals, Balanced name := by
  intro name hname
  obtain ⟨placed, hplaced, hnote⟩ :=
    (Scope.mem_globals_recordAll.mp hname).resolve_left List.not_mem_nil
  have hleaves : Leaves (.declared name) ((program.notes options).map PlacedNote.note) :=
    leaves_declared.mpr (List.mem_map.mpr ⟨placed, hplaced, hnote⟩)
  rw [Program.notes, Program.sections, leaves_sections] at hleaves
  obtain ⟨root, hroot, hbears⟩ | ⟨function, hfunction, hfn | hdeclared⟩ := hleaves
  · obtain ⟨node, hnode, hroot⟩ := List.mem_flatMap.mp hroot
    refine Node.Bracketless.declared ?_ hbears
    cases node with
    | function declaration => exact (h _ hnode).part hroot
    | _ =>
      rw [List.mem_singleton.mp hroot]
      exact h _ hnode
  · cases hfn
  · cases hdeclared
    obtain ⟨node, hnode, hname⟩ := List.mem_filterMap.mp hfunction
    cases node with
    | function declaration =>
      cases hname
      exact (h _ hnode).own List.mem_cons_self
    | _ => cases hname

namespace Document

variable {document : Document}

/-- The brackets that the header of a document leaves open. -/
def frame (document : Document) : List Char :=
  if document.options.closure then ['\x7d', ')'] else []

theorem nests_header (hrevision : Bracketless document.options.revision)
    (himports : ∀ name ∈ document.scope.imports, Balanced name) :
    Nests [] document.header document.frame := by
  have htitle : Balanced ("// Three.js Transpiler r" ++ document.options.revision ++ "\n\n") :=
    .between [] (fun _ => rfl) hrevision.balanced fun _ => rfl
  have hnames : Balanced (Script.braced document.scope.imports) := .braced himports
  unfold header frame
  refine Nests.append htitle ?_
  split
  · have hopen : Nests [] "( function ( TSL, uniforms ) \x7b\n\n" ['\x7d', ')'] := fun _ => rfl
    refine hopen.append (Balanced.nests ?_ _)
    split
    · exact fun _ => rfl
    · exact .between [] (fun _ => rfl) hnames fun _ => rfl
  · split
    · exact fun _ => rfl
    · have himport : Balanced "import " := fun _ => rfl
      have hfrom : Balanced " from " := fun _ => rfl
      have hlibrary : Balanced libraryModule := fun _ => rfl
      exact (((himport.append hnames).append hfrom).append hlibrary.literal).append fun _ => rfl

theorem nests_footer (hglobals : ∀ name ∈ document.scope.globals, Balanced name) :
    Nests document.frame document.footer [] := by
  unfold footer frame
  split
  · refine Nests.append (Balanced.nests ?_ _) fun _ => rfl
    split
    · exact fun _ => rfl
    · exact .between [] (fun _ => rfl) (.braced hglobals) fun _ => rfl
  · exact fun _ => rfl

end Document

/-- If no string of a program has a bracket, and neither has the revision, then all brackets in the
text of its document are matched. -/
theorem wellNested_generate (program : Program) (options : Options)
    (hstrings : ∀ text ∈ program.strings, Bracketless text)
    (hrevision : Bracketless options.revision) : WellNested (program.generate options) := by
  have hnodes : ∀ node ∈ program.body, node.Bracketless :=
    fun node hn text ht => hstrings text (List.mem_flatMap.mpr ⟨node, hn, ht⟩)
  have hheader := Document.nests_header hrevision
    (program.balanced_imports options)
  have hbody : Balanced (program.document options).body := by
    have hline : Balanced "\n" := fun _ => rfl
    refine hline.append (.joined ?_)
    rw [List.forall_mem_map]
    exact balanced_sections options _ [] none hnodes
  have hfooter := Document.nests_footer (Program.balanced_globals options hnodes)
  exact ((hheader.append (hbody.nests _)).append hfooter) []

/-- A closure with a loop, a uniform and two overloads. -/
theorem wellNested_closure :
    let program : Program := ⟨[.uniform "map" "sampler2D",
      .function ⟨"wave", "vec3", [⟨"p", "vec2", none, true⟩],
        [.loop (some (.bindings [⟨"k", "int", some (.number "0" .int), true⟩]))
            (some (.operator .lessThan (.accessor "k") (.number "4" .int)))
            (some (.unary .increment (.accessor "k") true))
            [.conditional (.operator .greaterThan (.accessor "p") (.accessor "k")) [.break] []],
          .return (some (.call "texture" [.accessor "map", .accessor "p"]))], true⟩,
      .function ⟨"wave", "float", [], [.return none], false⟩]⟩
    let options : Options := ⟨true, true, "170"⟩
    (∀ text ∈ program.strings, Bracketless text) ∧ Bracketless options.revision ∧
      WellNested (program.generate options) := by
  intro program options
  have hstrings : ∀ text ∈ program.strings, Bracketless text := by decide +kernel
  have hrevision : Bracketless options.revision := by decide
  exact ⟨hstrings, hrevision, wellNested_generate program options hstrings hrevision⟩

end ShaderScript
