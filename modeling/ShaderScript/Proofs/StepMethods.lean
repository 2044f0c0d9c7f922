import ShaderScript.Proofs.Continuation
import ShaderScript.Proofs.KeptBreaks
import ShaderScript.Proofs.LiteralHeads
import ShaderScript.Proofs.StepPlaces

/-!
# Methods of steps

A step is emitted as a method of its operand: the plain one gives the value before the step, and the
one that ends in `Before` the value after it. The plain method is written for a trailing step in the
value of a declared variable, and nowhere else. This is proved by turning the step into a leading
one, which always has the other method, and comparing the two documents.
-/

namespace ShaderScript

/-- The text of a step with the given method. -/
def Form.step (method : String) (operand : Fragment) : String :=
  (Form.unaryAs (startsLiteral operand.text) method operand).text

/-- Two fragments that differ only in how one trailing step is written: as it is in some context,
or as the leading step would be there. -/
def StepShown (op : UnaryOp) (operand : Node) (declared : Bool) (old new : Fragment) : Prop :=
  ∃ hole : Context, hole.initializing = declared ∧ ∃ count, 0 < count ∧
    Interchangeable (emit hole (.unary op operand true)).text
      (emit hole (.unary op operand false)).text ∧
    Twin (emit hole (.unary op operand true)).text (emit hole (.unary op operand false)).text
      count old.text new.text

section Steps

variable {op : UnaryOp} {operand : Node}

theorem emit_unary_of_kind (context : Context) (op : UnaryOp) (trailing : Bool)
    (h : operand.kind ≠ .number) : emit context (.unary op operand trailing) =
      Form.unary op trailing context.initializing (emit context operand) := by
  obtain ⟨value, kind, rfl, -⟩ | ⟨-, hemit⟩ := emit_unary_cases context op operand trailing
  · exact absurd rfl h
  · exact hemit

/-- The plain method is for a trailing step in a declaration. -/
theorem text_step (hstep : op.isStep) (hoperand : operand.kind ≠ .number) {base : String}
    (hbase : op.method? = some base) (context : Context) (trailing : Bool) :
    (emit context (.unary op operand trailing)).text =
      Form.step (if context.initializing && trailing then base else base ++ "Before")
        (emit context operand) := by
  have hmethod : Form.unaryMethod? op trailing context.initializing =
      some (if context.initializing && trailing then base else base ++ "Before") := by
    rw [Form.unaryMethod?, hbase, hstep]
    cases context.initializing <;> cases trailing <;> rfl
  rw [emit_unary_of_kind context op trailing hoperand, Form.unary, hmethod, Form.step,
    Form.unaryAs]

theorem method?_of_isStep (hstep : op.isStep) :
    ∃ base : String, op.method? = some base ∧ base.toList.length = 9 := by
  cases op with
  | increment | decrement => exact ⟨_, rfl, by decide⟩
  | positive | negate | bitNot | not => cases hstep

theorem interchangeable_step {base : String} (hlength : base.toList.length = 9)
    (ending : String) (operand : Fragment) :
    Interchangeable (Form.step base operand) (Form.step (base ++ ending) operand) := by
  have hhead : ∀ rest : String, (base ++ rest).toList.take 5 = base.toList.take 5 := by
    intro rest
    rw [String.toList_append, List.take_append_of_le_length (by omega)]
  have hlast : ∀ text closing : String, closing.toList.getLast? = some ')' →
      (text ++ closing).toList.getLast? = some ')' := by
    intro text closing hclosing
    rw [String.toList_append, List.getLast?_append, hclosing, Option.some_or]
  unfold Form.step Form.unaryAs
  cases startsLiteral operand.text with
  | true =>
    refine ⟨?_, (hlast _ " )" (by decide)).trans (hlast _ " )" (by decide)).symm⟩
    simp only [Script.apply, if_true, String.append_assoc, hhead]
  | false =>
    have hcall : ∀ name : String, (name ++ "()").toList.getLast? = some ')' :=
      fun name => hlast name "()" (by decide)
    refine ⟨?_, (hlast _ _ (hcall base)).trans (hlast _ _ (hcall (base ++ ending))).symm⟩
    have hcalls : (base ++ "()").toList.take 5 = (base ++ ending ++ "()").toList.take 5 := by
      rw [String.append_assoc, hhead, hhead]
    have hobject : ∀ call : String, (operand.text ++ "." ++ call).toList =
        (operand.text ++ ".").toList ++ call.toList := fun call => String.toList_append
    show (operand.text ++ "." ++ (base ++ "()")).toList.take 5 =
      (operand.text ++ "." ++ (base ++ ending ++ "()")).toList.take 5
    rw [hobject, hobject]
    exact take_append_congr rfl hcalls

theorem stepShown_here (hstep : op.isStep) (hoperand : operand.kind ≠ .number)
    (context : Context) :
    StepShown op operand context.initializing (emit context (.unary op operand true))
      (emit context (.unary op operand false)) := by
  refine ⟨context, rfl, 1, Nat.one_pos, ?_, .place⟩
  obtain ⟨base, hbase, hlength⟩ := method?_of_isStep hstep
  rw [text_step hstep hoperand hbase, text_step hstep hoperand hbase]
  cases context.initializing with
  | true => exact interchangeable_step hlength "Before" _
  | false => exact ⟨rfl, rfl⟩

/-- What is put around both fragments leaves them twins. -/
theorem StepShown.within {declared : Bool} {old new old' new' : Fragment}
    (h : StepShown op operand declared old new)
    (hform : ∀ {former latter : String} {count : Nat}, Interchangeable former latter →
      Twin former latter count old.text new.text →
        ∃ total, Twin former latter total old'.text new'.text ∧ count ≤ total) :
    StepShown op operand declared old' new' := by
  obtain ⟨hole, hhole, count, hcount, hpieces, htwin⟩ := h
  obtain ⟨total, htwin', htotal⟩ := hform hpieces htwin
  exact ⟨hole, hhole, total, Nat.lt_of_lt_of_le hcount htotal, hpieces, htwin'⟩

end Steps

/-! ## Parts of nodes -/

section Frames

variable {op : UnaryOp} {operand node node' : Node} {place spot : StepPlace} {declared : Bool}
  {context : Context} {initial condition afterthought : Option Node}

theorem ofFragments_emitAll (context : Context) (nodes : List Node) :
    Body.ofFragments context nodes (emitAll context nodes) = emitBody context nodes := by
  rw [emitAll_eq_map, ofFragments_eq_emitBody]

theorem StepShown.emitBody
    (hshown : StepShown op operand declared (emit context node) (emit context node'))
    (h : Turned op operand place spot node node') (front back : List Node) :
    StepShown op operand declared (emitBody context (front ++ node :: back))
      (emitBody context (front ++ node' :: back)) :=
  hshown.within fun hpieces htwin =>
    ⟨_, twin_body hpieces front back h.kind_eq (h.kind_ne (by decide)) htwin, Nat.le_refl _⟩

theorem StepShown.argument
    (hshown : StepShown op operand declared (emit context node) (emit context node'))
    {name : String} {before after : List Node}
    (hmem : before.length ∈ shownArgs name (List.range (before.length + (after.length + 1)))) :
    StepShown op operand declared (emit context (.call name (before ++ node :: after)))
      (emit context (.call name (before ++ node' :: after))) := by
  simp only [emit, emitAll_eq_map, List.map_append, List.map_cons]
  refine hshown.within fun {former latter count} _ htwin => ?_
  let unchanged (args : List Node) : List (TwinFragments former latter) :=
    args.map fun arg => .same (emit context arg)
  let part : TwinFragments former latter := ⟨count, emit context node, emit context node', htwin⟩
  have hpart : part ∈ shownArgs name (unchanged before ++ part :: unchanged after) :=
    mem_shownArgs (by simpa [unchanged] using hmem) part
  have hcount : part.count ≤ total TwinFragments.count _ := size_le_total hpart
  have hcall := twin_call name (unchanged before ++ part :: unchanged after)
  simp only [unchanged, List.map_append, List.map_cons, List.map_map, Function.comp_def] at hcall
  exact ⟨_, hcall, hcount⟩

/-- The label of a case, or its body. -/
theorem StepShown.inCase {old new : Fragment} (hshown : StepShown op operand declared old new)
    (discriminant : Node) (before after : List (Branch Node)) {branch branch' : Branch Node}
    (hbranch : (∃ body, emitCase context.cases branch = (some old, body) ∧
        emitCase context.cases branch' = (some new, body)) ∨
      ∃ label, emitCase context.cases branch = (label, some old) ∧
        emitCase context.cases branch' = (label, some new)) :
    StepShown op operand declared (emit context (.switch discriminant (before ++ branch :: after)))
      (emit context (.switch discriminant (before ++ branch' :: after))) := by
  simp only [emit, emitCases_eq_map, List.map_append, List.map_cons]
  refine hshown.within fun {former latter count} _ htwin => ?_
  let part : TwinFragments former latter := ⟨count, old, new, htwin⟩
  have hswitch (label body : Option (TwinFragments former latter)) :=
    exists_twin_switch context.depth (emit context discriminant)
      (before.map (emitCase context.cases)) (after.map (emitCase context.cases)) label body
  obtain ⟨body, hold, hnew⟩ | ⟨label, hold, hnew⟩ := hbranch
  · obtain ⟨total, htotal, hlabel, -⟩ := hswitch (some part) (body.map .same)
    rw [TwinFragments.old_same, TwinFragments.new_same] at htotal
    rw [hold, hnew]
    exact ⟨total, htotal, hlabel⟩
  · obtain ⟨total, htotal, -, hbody⟩ := hswitch (label.map .same) (some part)
    rw [TwinFragments.old_same, TwinFragments.new_same] at htotal
    rw [hold, hnew]
    exact ⟨total, htotal, hbody⟩

/-! ### Loops -/

theorem StepShown.start
    (hshown : StepShown op operand declared (emit context node) (emit context node'))
    {name type : String} {mutable : Bool} (body : List Node)
    (hcounts : (Counting.ofLoop? (some (.bindings [⟨name, type, some node, mutable⟩])) condition
      afterthought).isSome) :
    StepShown op operand declared
      (emit context (.loop (some (.bindings [⟨name, type, some node, mutable⟩])) condition
        afterthought body))
      (emit context (.loop (some (.bindings [⟨name, type, some node', mutable⟩])) condition
        afterthought body)) := by
  obtain ⟨counting, hcounting⟩ := Option.isSome_iff_exists.mp hcounts
  obtain ⟨hcounting', rfl⟩ := Counting.ofLoop?_start hcounting node'
  rw [emit_counting hcounting, emit_counting hcounting']
  exact hshown.within fun _ htwin => ⟨_, twin_countingStart context.depth
    (counting.map (emit context)) _ htwin, Nat.le_refl _⟩

theorem StepShown.limit
    (hshown : StepShown op operand declared (emit context node) (emit context node'))
    {comparison : BinaryOp} {counter : Node} (body : List Node)
    (hcounts : (Counting.ofLoop? initial (some (.operator comparison counter node))
      afterthought).isSome) :
    StepShown op operand declared
      (emit context (.loop initial (some (.operator comparison counter node)) afterthought body))
      (emit context (.loop initial (some (.operator comparison counter node')) afterthought
        body)) := by
  obtain ⟨counting, hcounting⟩ := Option.isSome_iff_exists.mp hcounts
  obtain ⟨hcounting', rfl⟩ := Counting.ofLoop?_limit hcounting node'
  rw [emit_counting hcounting, emit_counting hcounting']
  exact hshown.within fun _ htwin => ⟨_, twin_countingLimit context.depth
    (counting.map (emit context)) _ htwin, Nat.le_refl _⟩

theorem StepShown.assignment
    (hshown : StepShown op operand declared (emit context node) (emit context node'))
    (h : Turned op operand place spot node node') (hkind : node.kind = .operator)
    {counting : Counting Node} (body : List Node)
    (hcounting : Counting.ofLoop? initial condition (some node) = some counting) :
    StepShown op operand declared (emit context (.loop initial condition (some node) body))
      (emit context (.loop initial condition (some node') body)) := by
  obtain ⟨hcounting', hupdate⟩ := h.ofLoop?_assign hkind hcounting
  have hmap : counting.map (emit context) =
      { counting.map (emit context) with update := .assign (emit context node) } := by
    rw [Counting.map, hupdate]
    rfl
  rw [emit_counting hcounting, emit_counting hcounting', hmap]
  exact hshown.within fun _ htwin => ⟨_, twin_countingAssignment context.depth
    (counting.map (emit context)) _ htwin, Nat.le_refl _⟩

theorem StepShown.loopBody
    (hshown : ∀ {inner : Context}, inner.initializing = context.initializing →
      StepShown op operand declared (emit inner node) (emit inner node'))
    (h : Turned op operand place spot node node')
    (initial condition afterthought : Option Node) (front back : List Node) :
    StepShown op operand declared
      (emit context (.loop initial condition afterthought (front ++ node :: back)))
      (emit context (.loop initial condition afterthought (front ++ node' :: back))) := by
  cases hcounting : Counting.ofLoop? initial condition afterthought with
  | none =>
    rw [emit_general hcounting, emit_general hcounting]
    have hinner : context.outsideCase.deeper.deeper.initializing = context.initializing := rfl
    exact ((hshown hinner).emitBody h front back).within fun _ htwin =>
      ⟨_, twin_generalBody _ _ _ _ htwin, Nat.le_refl _⟩
  | some counting =>
    rw [emit_counting hcounting, emit_counting hcounting]
    have hinner : context.outsideCase.deeper.initializing = context.initializing := rfl
    exact ((hshown hinner).emitBody h front back).within fun _ htwin =>
      ⟨_, twin_countingBody _ _ htwin, Nat.le_refl _⟩

end Frames

/-- A trailing step is written as its place says, and the leading step in its place differs from it
by the method only. -/
theorem Turned.stepShown {op : UnaryOp} {operand node node' : Node} {place spot : StepPlace}
    (h : Turned op operand place spot node node') {context : Context}
    (hcontext : context.initializing = spot.declared) :
    StepShown op operand place.declared (emit context node) (emit context node') := by
  -- parts stand in other contexts, but only a declaration changes whether they initialize
  induction h generalizing context with
  | here hstep hoperand =>
    rw [← hcontext]
    exact stepShown_here hstep hoperand context
  | object elements h ih =>
    simp only [emit]
    exact (ih hcontext).within fun _ htwin => ⟨_, twin_chain htwin (.same _), by omega⟩
  | member object before after h ih =>
    simp only [emit, emitElements_eq_map, List.map_append, List.map_cons, emitElement]
    exact (ih hcontext).within fun _ htwin =>
      ⟨_, twin_chain (.same _) (.texts_middle _ _ (twin_member htwin)), by omega⟩
  | index object before after h ih =>
    simp only [emit, emitElements_eq_map, List.map_append, List.map_cons, emitElement]
    exact (ih hcontext).within fun hpieces htwin =>
      ⟨_, twin_chain (.same _) (.texts_middle _ _ (twin_index hpieces htwin)), by omega⟩
  | left other right h ih =>
    simp only [emit]
    exact (ih hcontext).within fun hpieces htwin =>
      ⟨_, twin_binary hpieces other htwin (.same _), by omega⟩
  | right other left h ih =>
    simp only [emit]
    exact (ih hcontext).within fun hpieces htwin =>
      ⟨_, twin_binary hpieces other (.same _) htwin, by omega⟩
  | operand other trailing h ih =>
    have hkind := h.kind_ne (List.mem_cons_self : Kind.number ∈ _)
    rw [emit_unary_of_kind context other trailing hkind,
      emit_unary_of_kind context other trailing (h.kind_eq ▸ hkind)]
    exact (ih hcontext).within fun hpieces htwin =>
      ⟨_, twin_unary hpieces other trailing _ htwin, by omega⟩
  | selector left right h ih =>
    simp only [emit]
    exact (ih hcontext).within fun _ htwin =>
      ⟨_, twin_ternary htwin (.same _) (.same _), by omega⟩
  | whenTrue condition right h ih =>
    simp only [emit]
    exact (ih hcontext).within fun _ htwin =>
      ⟨_, twin_ternary (.same _) htwin (.same _), by omega⟩
  | whenFalse condition left h ih =>
    simp only [emit]
    exact (ih hcontext).within fun _ htwin =>
      ⟨_, twin_ternary (.same _) (.same _) htwin, by omega⟩
  | argument hmem h ih => exact (ih hcontext).argument hmem
  | returned h ih =>
    simp only [emit, emitOptional]
    exact (ih hcontext).within fun _ htwin => ⟨_, twin_returned htwin, Nat.le_refl _⟩
  | declarator name type mutable before after h ih =>
    simp only [emit, emitDeclarators_eq_map, List.map_append, List.map_cons, emitDeclarator,
      emitOptional, Option.any_some, h.isCallOf_eq]
    have hinitializers : context.initializers.initializing = StepPlace.declarator.declared := rfl
    refine (ih hinitializers).within fun _ htwin => ?_
    exact ⟨_, twin_bindings _ (.texts_middle _ _ (twin_binding name type _ mutable htwin)),
      Nat.le_refl _⟩
  | test body alternates h ih =>
    simp only [emit]
    exact (ih hcontext).within fun _ htwin =>
      ⟨_, twin_conditional _ htwin (.same _) (.same _), by omega⟩
  | consequence condition front back alternates h ih =>
    simp only [emit, ofFragments_emitAll]
    have hdeeper : context.deeper.initializing = _ := hcontext
    exact ((ih hdeeper).emitBody h front back).within fun _ htwin =>
      ⟨_, twin_conditional _ (.same _) htwin (.same _), by omega⟩
  | alternateTest condition body before after nodes h ih =>
    simp only [emit, emitAlternates_eq_map, List.map_append, List.map_cons, emitAlternate,
      emitOptional]
    refine (ih hcontext).within fun _ htwin => ?_
    exact ⟨_, twin_conditional _ (.same _) (.same _)
      (twins_alternates _ _ _ (twin_alternateTest _ _ htwin)), by omega⟩
  | alternateBody condition body before after test front back h ih =>
    simp only [emit, emitAlternates_eq_map, List.map_append, List.map_cons, emitAlternate,
      ofFragments_emitAll]
    have hdeeper : context.deeper.initializing = _ := hcontext
    refine ((ih hdeeper).emitBody h front back).within fun _ htwin => ?_
    exact ⟨_, twin_conditional _ (.same _) (.same _)
      (twins_alternates _ _ _ (twin_alternateBody _ _ htwin)), by omega⟩
  | discriminant cases h ih =>
    simp only [emit]
    exact (ih hcontext).within fun _ htwin => ⟨_, twin_discriminant _ _ htwin, Nat.le_refl _⟩
  | caseLabel discriminant before after nodes h ih =>
    have hcases : context.cases.initializing = _ := hcontext
    exact (ih hcases).inCase discriminant before after (.inl ⟨_, rfl, rfl⟩)
  | caseBody discriminant before after label front back h ih =>
    have hdeeper : context.cases.deeper.initializing = _ := hcontext
    have hbody := (ih hdeeper).emitBody h front back
    refine hbody.inCase discriminant before after (.inr ⟨emitOptional context.cases label, ?_, ?_⟩)
    · simp [emitCase, ofFragments_emitAll, -emitAll_eq_map]
    · simp [emitCase, ofFragments_emitAll, -emitAll_eq_map]
  | start body hcounts h ih => exact (ih hcontext).start body hcounts
  | limit body hcounts h ih => exact (ih hcontext).limit body hcounts
  | initial body hgeneral h ih =>
    rw [emit_general hgeneral, emit_general (h.ofLoop?_initial hgeneral)]
    exact (ih hcontext).within fun _ htwin =>
      ⟨_, twin_generalInitial _ _ _ _ htwin, Nat.le_refl _⟩
  | condition body hgeneral h ih =>
    rw [emit_general hgeneral, emit_general (h.ofLoop?_condition hgeneral)]
    exact (ih hcontext).within fun _ htwin =>
      ⟨_, twin_generalCondition _ _ _ _ htwin, Nat.le_refl _⟩
  | @afterthought _ node node' initial condition body hshown h ih =>
    cases hcounting : Counting.ofLoop? initial condition (some node) with
    | none =>
      rw [emit_general hcounting, emit_general (h.ofLoop?_afterthought hcounting)]
      exact (ih hcontext).within fun _ htwin =>
        ⟨_, twin_generalAfterthought _ _ _ _ htwin, Nat.le_refl _⟩
    | some counting =>
      have hkind : node.kind = .operator := hshown.resolve_left (by simp [hcounting])
      exact (ih hcontext).assignment h hkind body hcounting
  | body initial condition afterthought front back h ih =>
    refine StepShown.loopBody (fun {inner} hinner => ih ?_) h initial condition afterthought front
      back
    exact hinner.trans hcontext

/-! ## Programs -/

/-- The place of a top-level statement, and of a statement of a top-level function. -/
def StepPlace.root : StepPlace :=
  ⟨false, false⟩

namespace Program

/-- One trailing step of a program, which stands in the given place, is turned into a leading
one. -/
inductive Turned (op : UnaryOp) (operand : Node) (place : StepPlace) : Program → Program → Prop
  | statement {node node' : Node} (before after : List Node)
    (h : ShaderScript.Turned op operand place .root node node') :
    Turned op operand place ⟨before ++ node :: after⟩ ⟨before ++ node' :: after⟩
  | function {node node' : Node} (before after : List Node) (declaration : FunctionDecl Node)
    (front back : List Node) (h : ShaderScript.Turned op operand place .root node node') :
    Turned op operand place
      ⟨before ++ .function { declaration with body := front ++ node :: back } :: after⟩
      ⟨before ++ .function { declaration with body := front ++ node' :: back } :: after⟩

/-- The step is written with the given method, each time that its place is written: where another
program has the step with the method `other`, this one has it with `method`, and there is no other
difference. -/
def WritesStep (program turned : Program) (options : Options) (operand : Node)
    (method other : String) : Prop :=
  ∃ (hole : Context) (count : Nat), 0 < count ∧
    Twin (Form.step method (emit hole operand)) (Form.step other (emit hole operand)) count
      (program.document options).body (turned.document options).body

end Program

section Programs

variable {op : UnaryOp} {operand : Node} {declared : Bool}

theorem sections_of_spacing (options : Options) (all earlier : List String)
    {previous before : Option Node}
    (h : previous.map Node.spacing = before.map Node.spacing) (nodes : List Node) :
    sections options all earlier previous nodes = sections options all earlier before nodes := by
  cases nodes with
  | nil => rfl
  | cons node nodes => rw [sections, sections, Body.gap_congr h rfl]

/-- Only the section of the statement itself changes. -/
theorem StepShown.document {options : Options} {node node' : Node} {before after : List Node}
    (hshown : StepShown op operand declared
      (.plain (Section.ofNode options (functionNames (before ++ node :: after))
        (functionNames before) node).text)
      (.plain (Section.ofNode options (functionNames (before ++ node :: after))
        (functionNames before) node').text))
    (hkind : node'.kind = node.kind) (hnames : functionNames [node'] = functionNames [node]) :
    StepShown op operand declared (.plain (Program.document ⟨before ++ node :: after⟩ options).body)
      (.plain (Program.document ⟨before ++ node' :: after⟩ options).body) := by
  have hspacing := spacing_of_kind hkind
  have hall : functionNames (before ++ node' :: after) =
      functionNames (before ++ node :: after) := by
    rw [functionNames_append, functionNames_append, functionNames_cons node',
      functionNames_cons node, hnames]
  have hgap (previous : Option Node) : Body.gap previous node' = Body.gap previous node :=
    Body.gap_congr rfl hspacing
  have hprevious : (some node').map Node.spacing = (some node).map Node.spacing :=
    congrArg some hspacing
  have hrest (earlier : List String) :
      sections options (functionNames (before ++ node :: after)) earlier (some node') after =
        sections options (functionNames (before ++ node :: after)) earlier (some node) after :=
    sections_of_spacing options _ earlier hprevious after
  refine hshown.within fun _ htwin => ?_
  simp only [Program.document, Program.sections, hall, sections_append, sections, hnames, hrest,
    hgap, List.map_append, List.map_cons, List.nil_append]
  exact ⟨_, (Twins.middle _ _ (htwin.before _)).joined.before "\n", Nat.le_refl _⟩

theorem twin_function {former latter : String} {count : Nat} {body body' : String}
    (declaration : FunctionDecl Node) (options : Options) (overload : Option Overload)
    (h : Twin former latter count body body') :
    Twin former latter count (declaration.text options overload body)
      (declaration.text options overload body') := by
  have hconstant : Twin former latter count (declaration.constantText options overload body)
      (declaration.constantText options overload body') :=
    (((h.callback declaration.inputList options.depth).before _).after _).after " );\n"
  unfold FunctionDecl.text
  cases overload with
  | none => exact hconstant
  | some overload =>
    cases hlast : overload.isLast with
    | false => simpa [hlast] using hconstant
    | true => simpa [hlast] using (hconstant.after "\n").after _

theorem StepShown.function {options : Options} {node node' : Node}
    (hshown : ∀ {context : Context}, context.initializing = false →
      StepShown op operand declared (emit context node) (emit context node'))
    {place spot : StepPlace} (h : Turned op operand place spot node node')
    (all earlier : List String) (declaration : FunctionDecl Node) (front back : List Node) :
    StepShown op operand declared
      (.plain (Section.ofFunction options all earlier
        { declaration with body := front ++ node :: back }).text)
      (.plain (Section.ofFunction options all earlier
        { declaration with body := front ++ node' :: back }).text) := by
  let context : Context := ⟨options.reference, options.depth + 1, false, false⟩
  let copies : List Node := (declaration.params.filter Parameter.isCopied).map Parameter.copy
  have hbody : StepShown op operand declared (ShaderScript.emitBody context _) _ :=
    (hshown rfl).emitBody h (copies ++ front) back
  have hemit (inner : Node) :
      FunctionDecl.emitBody options { declaration with body := front ++ inner :: back } =
        ShaderScript.emitBody context (copies ++ front ++ inner :: back) := by
    rw [FunctionDecl.emitBody, ofFragments_emitAll, FunctionDecl.statements, List.append_assoc]
  refine hbody.within fun _ htwin => ?_
  simp only [Section.ofFunction, hemit]
  exact ⟨_, twin_function { declaration with body := [] } options _ htwin, Nat.le_refl _⟩

theorem Program.Turned.stepShown {place : StepPlace} {program turned : Program}
    (h : program.Turned op operand place turned) (options : Options) :
    StepShown op operand place.declared (.plain (program.document options).body)
      (.plain (turned.document options).body) := by
  cases h with
  | @statement node node' before after h =>
    have hfunction : node.kind ≠ .function := h.kind_ne (by decide)
    have hfunction' : node'.kind ≠ .function := h.kind_eq ▸ hfunction
    refine StepShown.document ?_ h.kind_eq ?_
    · rw [ofNode_of_kind _ _ _ hfunction, ofNode_of_kind _ _ _ hfunction']
      have hcontext : (Section.context options).initializing = StepPlace.root.declared := rfl
      exact (h.stepShown hcontext).within fun _ htwin => ⟨_, htwin.after ";\n", Nat.le_refl _⟩
    · rw [functionNames_of_kind hfunction, functionNames_of_kind hfunction']
  | function before after declaration front back h =>
    refine StepShown.document ?_ rfl rfl
    exact StepShown.function (fun {context} hcontext => h.stepShown hcontext) h _ _ declaration
      front back

theorem Program.Turned.isStep {place : StepPlace} {program turned : Program}
    (h : program.Turned op operand place turned) : op.isStep ∧ operand.kind ≠ .number := by
  cases h with
  | statement _ _ h => exact h.isStep
  | function _ _ _ _ _ h => exact h.isStep

/-- The method of a trailing step is the plain one in the declaration of a variable, and the one of
a leading step everywhere else. -/
theorem Program.Turned.writesStep {place : StepPlace} {program turned : Program}
    (h : program.Turned op operand place turned) (options : Options) {base : String}
    (hbase : op.method? = some base) :
    program.WritesStep turned options operand
      (if place.declared then base else base ++ "Before") (base ++ "Before") := by
  obtain ⟨hstep, hoperand⟩ := h.isStep
  obtain ⟨hole, hhole, count, hcount, -, htwin⟩ := h.stepShown options
  rw [text_step hstep hoperand hbase, text_step hstep hoperand hbase, hhole, Bool.and_true,
    Bool.and_false] at htwin
  exact ⟨hole, count, hcount, htwin⟩

theorem length_step (base ending : String) (operand : Fragment) :
    (Form.step (base ++ ending) operand).length =
      (Form.step base operand).length + ending.length := by
  unfold Form.step Form.unaryAs
  cases startsLiteral operand.text with
  | true => simp [Script.apply, String.length_append]; omega
  | false => simp [Script.method, Script.apply, String.length_append]; omega

theorem Program.Turned.writesStep_plain_iff {place : StepPlace} {program turned : Program}
    (h : program.Turned op operand place turned) (options : Options) {base : String}
    (hbase : op.method? = some base) :
    program.WritesStep turned options operand base (base ++ "Before") ↔
      place.declared = true := by
  have hwrites := h.writesStep options hbase
  by_cases hdeclared : place.declared = true
  · rw [if_pos hdeclared] at hwrites
    exact iff_of_true hwrites hdeclared
  · -- the documents are the same, so they cannot differ by the length of the methods
    rw [if_neg hdeclared] at hwrites
    obtain ⟨_, _, _, hleading⟩ := hwrites
    have hsame := hleading.eq_of_eq rfl
    refine iff_of_false ?_ hdeclared
    rintro ⟨hole, count, hcount, htwin⟩
    have hlength := htwin.length_add
    have hbefore : "Before".length = 6 := rfl
    rw [hsame, length_step, hbefore, Nat.mul_add] at hlength
    omega

end Programs

/-- A trailing step is written with the plain method exactly if it is part of the value of a
declared variable, and like a leading step if not. So all steps whose value is used keep it if and
only if all of them stand in declarations. -/
theorem used_steps_plain_iff (program : Program) (options : Options) :
    (∀ op operand place turned base, program.Turned op operand place turned →
        op.method? = some base →
        program.WritesStep turned options operand
            (if place.declared then base else base ++ "Before") (base ++ "Before") ∧
          (program.WritesStep turned options operand base (base ++ "Before") ↔
            place.declared = true)) ∧
      ((∀ op operand place turned base, program.Turned op operand place turned →
          op.method? = some base → place.used = true →
          program.WritesStep turned options operand base (base ++ "Before")) ↔
        ∀ op operand place turned, program.Turned op operand place turned →
          place.used = true → place.declared = true) := by
  refine ⟨?_, fun hplain => ?_, fun hall => ?_⟩
  · intro op operand place turned base h hbase
    exact ⟨h.writesStep options hbase, h.writesStep_plain_iff options hbase⟩
  · intro op operand place turned h hused
    obtain ⟨base, hbase, -⟩ := method?_of_isStep h.isStep.1
    exact (h.writesStep_plain_iff options hbase).mp (hplain _ _ _ _ _ h hbase hused)
  · intro op operand place turned base h hbase hused
    exact (h.writesStep_plain_iff options hbase).mpr (hall _ _ _ _ h hused)

/-- A trailing step in an index keeps its value in a declaration, but not in an assignment. -/
example :
    let step : Node := .unary .increment (.accessor "i") true
    let item : Node := .chain (.accessor "a") [.index step]
    (Program.document ⟨[.bindings [⟨"x", "int", some item, false⟩],
        .operator .assign (.accessor "y") item]⟩ .default).body =
      "\nconst x = int( a.element( i.increment() ) );\n" ++
        "y.assign( a.element( i.incrementBefore() ) );\n" := by
  decide +kernel

/-- The value of a trailing step that is returned is lost. -/
theorem returned_step_written_as_leading :
    let program (trailing : Bool) : Program :=
      ⟨[.function ⟨"f", "int", [], [.return (some (.unary .increment (.accessor "i") trailing))],
        true⟩]⟩
    (program true).Turned .increment (.accessor "i") ⟨true, false⟩ (program false) ∧
      ((program true).document .default).body =
        "\nexport const f = /*#__PURE__*/ Fn( () => \x7b\n\n\treturn i.incrementBefore();\n\n" ++
          "\x7d , \x7b return: 'int' \x7d );\n" ∧
      ¬ (program true).WritesStep (program false) .default (.accessor "i") "increment"
        "incrementBefore" := by
  intro program
  have hturned : (program true).Turned .increment (.accessor "i") ⟨true, false⟩ (program false) :=
    .function [] [] ⟨"f", "int", [], [], true⟩ [] [] (.returned (.here rfl (by decide)))
  refine ⟨hturned, by decide +kernel, fun hwrites => ?_⟩
  have hdeclared := (hturned.writesStep_plain_iff .default rfl).mp hwrites
  cases hdeclared

end ShaderScript
