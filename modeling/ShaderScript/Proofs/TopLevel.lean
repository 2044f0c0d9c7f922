import ShaderScript.Proofs.Layout
import ShaderScript.Proofs.Overloads

/-!
# The layout of a document

The body of a document is the text of the declarations and statements at the top level. Each of them
is laid out like a node, and the notes it leaves are known for every view. So the notes of two
documents of one program can be compared.
-/

namespace ShaderScript

open Script

/-- How a document of these options is laid out. -/
def Options.view (options : Options) : View :=
  ⟨options.reference, options.depth⟩

/-- The place of a top-level statement, as it is without a margin. -/
def topLevel (depth : Nat) : Context :=
  ⟨false, depth, false, false⟩

/-! ## Functions -/

section Functions

variable {P : String → Prop} {U : String × String → Prop} {declaration : FunctionDecl Node}

theorem laid_memberName {name : String} (h : P name) (index : Nat) :
    Laid P [] fun _ => Overload.memberName name index := by
  have hline : Unbroken "_" := by decide
  have hnumber : Unbroken (toString index) := by
    intro hbreak
    rw [Nat.toString_eq_repr, Nat.toList_repr] at hbreak
    have hdigit : '\n'.isDigit := Nat.isDigit_of_mem_toDigits (by decide) (by decide) hbreak
    cases hdigit
  exact ((Laid.own (.inr h)).after hline).after hnumber

theorem FunctionDecl.fits_parameter (h : (Node.function declaration).Fits P U)
    {parameter : Parameter} (hmem : parameter ∈ declaration.params) :
    P parameter.name ∧ P parameter.type := by
  have hown : ∀ text ∈ [parameter.name, parameter.type], P text := by
    intro text htext
    refine h.own (List.mem_cons_of_mem _ (List.mem_cons_of_mem _ ?_))
    exact List.mem_flatMap.mpr ⟨parameter, hmem, htext⟩
  exact ⟨hown _ (by simp), hown _ (by simp)⟩

theorem laid_layoutText (h : (Node.function declaration).Fits P U) :
    Laid P [] fun _ => declaration.layoutText := by
  have hcomma : Unbroken " , " := by decide
  have hreturn : Unbroken "return" := by decide
  have htype : Laid P [] fun _ => declaration.type :=
    .own (.inr (h.own (List.mem_cons_of_mem _ List.mem_cons_self)))
  unfold FunctionDecl.layoutText
  split
  · have hentries : ∀ string ∈ declaration.params.map (fun parameter =>
          entry parameter.name (literal parameter.type)) ++
            [entry "return" (literal declaration.type)], Laid P [] fun _ => string := by
      rw [List.forall_mem_append, List.forall_mem_map, List.forall_mem_singleton]
      refine ⟨fun parameter hp => ?_, (Laid.fixed hreturn).entry htype.literal⟩
      obtain ⟨hname, hkind⟩ := FunctionDecl.fits_parameter h hp
      have hkind : Laid P [] fun _ => parameter.type := .own (.inr hkind)
      exact (Laid.own (.inr hname)).entry hkind.literal
    exact (((laid_join hentries).before (by decide)).after (by decide)).before hcomma
  · exact .fixed (by decide)

variable (hsuffix : ∀ text, P text → P (text ++ immutableSuffix))
include hsuffix

theorem Parameter.inputName_of {parameter : Parameter} (h : P parameter.name) :
    P parameter.inputName := by
  unfold inputName
  split
  · exact hsuffix _ h
  · exact h

theorem Parameter.fits_copy {parameter : Parameter} (hname : P parameter.name)
    (htype : P parameter.type) : parameter.copy.Fits P U := by
  have hinput : (Node.accessor parameter.inputName).Fits P U :=
    .of_parts (List.forall_mem_singleton.mpr (inputName_of hsuffix hname)) nofun nofun
  refine .of_parts ?_ nofun (List.forall_mem_singleton.mpr hinput)
  simp [copy, Node.ownStrings, hname, htype]

theorem FunctionDecl.fits_statements (h : (Node.function declaration).Fits P U) :
    ∀ node ∈ declaration.statements, node.Fits P U := by
  rw [statements, List.forall_mem_append, List.forall_mem_map]
  constructor
  · intro parameter hp
    obtain ⟨hname, htype⟩ := fits_parameter h (List.mem_of_mem_filter hp)
    exact Parameter.fits_copy hsuffix hname htype
  · exact fun node hn => h.part hn

omit hsuffix in
theorem FunctionDecl.shownUniforms_statements (declaration : FunctionDecl Node) :
    declaration.statements.flatMap Node.shownUniforms =
      declaration.body.flatMap Node.shownUniforms := by
  have hcopy (parameter : Parameter) : parameter.copy.shownUniforms = [] := by
    have hinput : (Node.accessor parameter.inputName).shownUniforms = [] := by
      simp [Node.shownUniforms_eq, Node.ownUniforms, Node.shown, Node.parts]
    rw [Node.shownUniforms_eq]
    simp [Parameter.copy, Node.ownUniforms, Node.shown, Node.parts, hinput]
  simp [statements, List.flatMap_append, List.flatMap_map, hcopy]

theorem drawn_functionBody (h : (Node.function declaration).Fits P U) (depth : Nat) :
    DrawnBody P U (declaration.body.flatMap Node.shownUniforms) fun view =>
      emitBody ((topLevel depth).deeper.seen view) declaration.statements := by
  rw [← declaration.shownUniforms_statements]
  exact drawn_emitBody
    (fun node hn => (FunctionDecl.fits_statements hsuffix h node hn).draws) (topLevel depth)

theorem laid_inputList (h : (Node.function declaration).Fits P U) :
    Laid P [] fun _ => declaration.inputList := by
  unfold FunctionDecl.inputList
  split
  · exact .fixed (by decide)
  · have hnames : ∀ string ∈ declaration.params.map Parameter.inputName,
        Laid P [] fun _ => string := by
      rw [List.forall_mem_map]
      intro parameter hp
      exact .own (.inr (Parameter.inputName_of hsuffix (FunctionDecl.fits_parameter h hp).1))
    have hlist : Laid P [] fun _ => bracketed (declaration.params.map Parameter.inputName) :=
      ((laid_join hnames).before (by decide)).after (by decide)
    exact (hlist.before (by decide)).after (by decide)

end Functions

/-! ## Declarations -/

namespace FunctionConstant

/-- The declaration of the constant, without the word before it and the line break after it. -/
def declaration (reference : Bool) (depth : Nat) : FunctionConstant → String
  | .function name declared =>
    "const " ++ name ++ " = /*#__PURE__*/ Fn( " ++
      callback declared.inputList depth
        (emitBody ⟨reference, depth + 1, false, false⟩ declared.statements).text ++
      declared.layoutText ++ " );"
  | .dispatcher name members =>
    "const " ++ name ++ " = /*#__PURE__*/ overloadingFn( [ " ++ join members ++ " ] );"

/-- The uniforms in the constant, in the order of the text. -/
def shownUniforms : FunctionConstant → List (String × String)
  | .function _ declared => declared.body.flatMap Node.shownUniforms
  | .dispatcher .. => []

theorem text_eq (options : Options) (constant : FunctionConstant) :
    constant.text options =
      options.lead ++ constant.declaration options.reference options.depth ++ "\n" := by
  cases constant with
  | function name declared =>
    have hend : " );\n" = " );" ++ "\n" := rfl
    have hbody : declared.emitBody options =
        emitBody ⟨options.reference, options.depth + 1, false, false⟩ declared.statements := by
      rw [FunctionDecl.emitBody, emitAll_eq_map, ofFragments_eq_emitBody]
    simp only [text, declaration, hbody, hend, String.append_assoc]
  | dispatcher name members =>
    have hend : " ] );\n" = " ] );" ++ "\n" := rfl
    simp only [text, declaration, hend, String.append_assoc]

section Laid

variable {P : String → Prop} {U : String × String → Prop}

theorem laid_dispatcher {name : String} {members : List String} (hname : P name)
    (hmembers : ∀ member ∈ members, Laid P [] fun _ => member) (depth : Nat) :
    Laid P [] fun view =>
      (dispatcher name members).declaration view.reference (view.margin + depth) := by
  have hconst : Unbroken "const " := by decide
  have hopen : Unbroken " = /*#__PURE__*/ overloadingFn( [ " := by decide
  have hclose : Unbroken " ] );" := by decide
  exact ((((Laid.own (.inr hname)).before hconst).after hopen).append (laid_join hmembers)).after
    hclose

variable (hsuffix : ∀ text, P text → P (text ++ immutableSuffix))
include hsuffix

theorem laid_function {name : String} {declared : FunctionDecl Node}
    (hname : Laid P [] fun _ => name) (h : (Node.function declared).Fits P U) (depth : Nat) :
    Laid P (declared.body.flatMap Node.shownUniforms) fun view =>
      (function name declared).declaration view.reference (view.margin + depth) := by
  have hconst : Unbroken "const " := by decide
  have hopen : Unbroken " = /*#__PURE__*/ Fn( " := by decide
  have hclose : Unbroken " );" := by decide
  have hcallback := Laid.callback (laid_inputList hsuffix h) depth
    (drawn_functionBody hsuffix h depth).text
  have hdeclaration := ((((hname.before hconst).after hopen).append hcallback).append
    (laid_layoutText h)).after hclose
  simp only [List.nil_append, List.append_nil] at hdeclaration
  exact hdeclaration

/-- All constants of a statement are laid out. -/
theorem laid {node : Node} (h : node.Fits P U) (before after : List Node) (depth : Nat) :
    ∀ constant ∈ functionConstants before node after,
      Laid P constant.shownUniforms fun view =>
        constant.declaration view.reference (view.margin + depth) := by
  cases node with
  | function declared =>
    have hname : P declared.name := h.own List.mem_cons_self
    have hmember := laid_memberName hname
    simp only [functionConstants]
    split
    · rw [List.forall_mem_singleton]
      exact laid_function hsuffix (.own (.inr hname)) h depth
    · rw [List.forall_mem_cons]
      refine ⟨laid_function hsuffix (hmember _) h depth, ?_⟩
      split
      · exact List.forall_mem_nil _
      · rw [List.forall_mem_singleton]
        refine laid_dispatcher hname ?_ depth
        rw [List.forall_mem_map]
        exact fun index _ => hmember index
  | _ => exact List.forall_mem_nil _

end Laid

end FunctionConstant

/-- A function becomes one constant, and a dispatcher may follow it. -/
theorem functionConstants_cases (before after : List Node) (declared : FunctionDecl Node) :
    ∃ name, functionConstants before (.function declared) after = [.function name declared] ∨
      ∃ members, functionConstants before (.function declared) after =
        [.function name declared, .dispatcher declared.name members] := by
  simp only [functionConstants]
  split
  · exact ⟨_, .inl rfl⟩
  · split
    · exact ⟨_, .inl rfl⟩
    · exact ⟨_, .inr ⟨_, rfl⟩⟩

/-! ## The body of a document -/

/-- The declarations of a top-level statement, or its text if it is no function. -/
def declarations (reference : Bool) (depth : Nat) (lead : FunctionConstant → String)
    (before : List Node) (node : Node) (after : List Node) : List String :=
  match functionConstants before node after with
  | [] => [(emit ⟨reference, depth, false, false⟩ node).text ++ ";"]
  | constants => constants.map fun constant => lead constant ++ constant.declaration reference depth

/-- The lines of a top-level statement that stands between others. -/
def placedText (reference : Bool) (depth : Nat) (lead : FunctionConstant → String) :
    List Node × Node × List Node → String
  | (before, node, after) =>
    Body.gap before.getLast? node ++ tabs depth ++
      "\n\n".intercalate (declarations reference depth lead before node after) ++ "\n"

/-- The text of the statements of a program, at a depth and with a word before every constant. -/
def Program.bodyText (program : Program) (reference : Bool) (depth : Nat)
    (lead : FunctionConstant → String) : String :=
  "\n" ++ String.join ((walk [] program.body).map (placedText reference depth lead))

theorem intercalate_break (first : String) (rest : List String) :
    "\n".intercalate ((first :: rest).map (· ++ "\n")) =
      "\n\n".intercalate (first :: rest) ++ "\n" := by
  have hbreaks : "\n\n" = "\n" ++ "\n" := rfl
  induction rest generalizing first with
  | nil => simp
  | cons second rest ih =>
    have hrest := ih second
    rw [List.map_cons] at hrest
    rw [List.map_cons, List.map_cons, String.intercalate_cons_cons, String.intercalate_cons_cons,
      hrest, hbreaks]
    simp only [String.append_assoc]

theorem statementText_eq (options : Options) (before : List Node) (node : Node)
    (after : List Node) :
    statementText options before node after =
      "\n\n".intercalate (declarations options.reference options.depth (fun _ => options.lead)
        before node after) ++ "\n" := by
  unfold statementText declarations
  cases functionConstants before node after with
  | nil =>
    have hend : ";\n" = ";" ++ "\n" := rfl
    simp only [hend, String.intercalate_singleton, String.append_assoc]
    rfl
  | cons constant constants =>
    have htext := funext (FunctionConstant.text_eq options)
    simp only [← intercalate_break, htext, List.map_cons, List.map_map, Function.comp_def]

theorem Program.body_document (program : Program) (options : Options) :
    (program.document options).body =
      program.bodyText options.reference options.depth fun _ => options.lead := by
  have htexts := texts_sections options (List.nil_append program.body).symm
  simp only [statementText_eq, ← String.append_assoc] at htexts
  exact congrArg (fun texts => "\n" ++ String.join texts) htexts

/-! ## Notes -/

/-- The notes of a top-level statement are known. -/
theorem Section.exists_notes {P : String → Prop} {U : String × String → Prop}
    (hsuffix : ∀ text, P text → P (text ++ immutableSuffix)) {node : Node} (h : node.Fits P U)
    (all earlier : List String) :
    ∃ bound notes own, Taken P U notes ∧ ∀ options : Options,
      (Section.ofNode options all earlier node).notes =
        PlacedNote.place bound (notes options.view) ++ own := by
  have hplain : ∃ bound notes own, Taken P U notes ∧ ∀ options : Options,
      PlacedNote.place [] (emit (Section.context options) node).notes =
        PlacedNote.place bound (notes options.view) ++ own :=
    ⟨[], _, [], (h.draws (topLevel 0)).notes, fun _ => (List.append_nil _).symm⟩
  cases node with
  | function declared =>
    refine ⟨declared.boundNames, _,
      PlacedNote.place [] (declared.ownNotes (Overload.of? all earlier declared.name)),
      (drawn_functionBody hsuffix h 0).notes, fun options => ?_⟩
    simp only [Section.ofNode, Section.ofFunction, FunctionDecl.emitBody, emitAll_eq_map,
      ofFragments_eq_emitBody]
    rfl
  | _ => exact hplain

theorem notes_sections (options : Options) {before nodes all : List Node}
    (hall : all = before ++ nodes) :
    (sections options (functionNames all) (functionNames before) before.getLast? nodes).flatMap
        Section.notes =
      (walk before nodes).flatMap fun (before, node, _) =>
        (Section.ofNode options (functionNames all) (functionNames before) node).notes := by
  induction nodes generalizing before with
  | nil => rfl
  | cons node after ih =>
    have hrest := @ih (before ++ [node]) (by simpa using hall)
    rw [functionNames_append, List.getLast?_concat] at hrest
    rw [sections, walk, List.flatMap_cons, List.flatMap_cons, hrest]

theorem Program.notes_eq (program : Program) (options : Options) :
    program.notes options = (walk [] program.body).flatMap fun (before, node, _) =>
      (Section.ofNode options (functionNames program.body) (functionNames before) node).notes :=
  notes_sections options (List.nil_append program.body).symm

theorem mem_of_mem_walk {before nodes : List Node} {place : List Node × Node × List Node}
    (h : place ∈ walk before nodes) : place.2.1 ∈ nodes := by
  induction nodes generalizing before with
  | nil => cases h
  | cons node after ih =>
    obtain rfl | h := List.mem_cons.mp h
    · exact List.mem_cons_self
    · exact List.mem_cons_of_mem _ (ih h)

/-! ## Two documents of a program -/

theorem Scope.recordAll_filter (scope : Scope) (notes : List PlacedNote) :
    scope.recordAll (notes.filter fun placed => !placed.note.isReport) = scope.recordAll notes := by
  induction notes generalizing scope with
  | nil => rfl
  | cons placed notes ih =>
    obtain ⟨bound, note⟩ := placed
    cases note with
    | report diagnostic => exact ih scope
    | _ =>
      rw [List.filter_cons_of_pos rfl, recordAll_cons, recordAll_cons]
      exact ih _

/-- What is read off the notes of a program part by part is the same for two documents, if it is the
same for known notes. -/
theorem Program.read_notes_congr {P : String → Prop} {U : String × String → Prop} {β : Type}
    {program : Program} {options other : Options} (read : List PlacedNote → List β)
    (hsuffix : ∀ text, P text → P (text ++ immutableSuffix))
    (hfits : ∀ node ∈ program.body, node.Fits P U) (hnil : read [] = [])
    (happend : ∀ front back, read (front ++ back) = read front ++ read back)
    (h : ∀ bound notes, Taken P U notes → read (PlacedNote.place bound (notes options.view)) =
      read (PlacedNote.place bound (notes other.view))) :
    read (program.notes options) = read (program.notes other) := by
  rw [notes_eq, notes_eq]
  have hplaces : ∀ place ∈ walk [] program.body, place.2.1.Fits P U :=
    fun place hplace => hfits _ (mem_of_mem_walk hplace)
  generalize walk [] program.body = places at hplaces
  induction places with
  | nil => simp only [List.flatMap_nil, hnil]
  | cons place places ih =>
    obtain ⟨hplace, hrest⟩ := List.forall_mem_cons.mp hplaces
    obtain ⟨before, node, after⟩ := place
    obtain ⟨bound, notes, own, htaken, hread⟩ := Section.exists_notes hsuffix hplace
      (functionNames program.body) (functionNames before)
    simp only [List.flatMap_cons, happend, hread, h bound notes htaken, ih hrest]

theorem Node.fits_anything (node : Node) : node.Fits (fun _ => True) fun _ => True :=
  ⟨fun _ _ => trivial, fun _ _ _ => trivial⟩

namespace Program

variable (program : Program)

theorem scope_document (options : Options) :
    (program.document options).scope = Scope.empty.recordAll (program.notes options) :=
  rfl

theorem diagnostics_document (options : Options) :
    (program.document options).diagnostics = diagnostics (program.notes options) :=
  rfl

/-- The notes depend on the options through the layout only. -/
theorem notes_congr {options other : Options} (h : options.view = other.view) :
    program.notes options = program.notes other := by
  refine read_notes_congr id (fun _ _ => trivial) (fun node _ => node.fits_anything) rfl
    (fun _ _ => rfl) fun bound notes _ => ?_
  rw [h]

/-- Without uniforms, they depend on the margin only. -/
theorem notes_congr_of_margin {program : Program} {options other : Options}
    (h : ∀ node ∈ program.body, ∀ name type, ¬ node.Contains (.uniform name type))
    (hmargin : options.view.margin = other.view.margin) :
    program.notes options = program.notes other := by
  have hfits : ∀ node ∈ program.body, node.Fits (fun _ => True) fun _ => False :=
    fun node hn => ⟨fun _ _ => trivial, h node hn⟩
  refine read_notes_congr id (fun _ _ => trivial) hfits rfl (fun _ _ => rfl)
    fun bound notes htaken => ?_
  rw [htaken.eq_of_margin_eq hmargin]

/-- What the notes tell about the program does not depend on the options. -/
theorem traces_congr (options other : Options) :
    (program.notes options).filterMap (fun placed => placed.note.trace?) =
      (program.notes other).filterMap fun placed => placed.note.trace? := by
  refine read_notes_congr _ (fun _ _ => trivial) (fun node _ => node.fits_anything) rfl
    (fun _ _ => List.filterMap_append) fun bound notes htaken => ?_
  have htraces := htaken.traces_eq options.view other.view
  simpa only [PlacedNote.place, List.filterMap_map, Function.comp_def] using htraces

/-- What is imported and declared does not depend on how far lines are indented. -/
theorem scope_congr {options other : Options} (h : options.reference = other.reference) :
    (program.document options).scope = (program.document other).scope := by
  have hview : options.view.reference = other.view.reference := h
  have hnotes : (program.notes options).filter (fun placed => !placed.note.isReport) =
      (program.notes other).filter fun placed => !placed.note.isReport := by
    refine read_notes_congr _ (fun _ _ => trivial) (fun node _ => node.fits_anything) rfl
      (fun _ _ => List.filter_append ..) fun bound notes htaken => ?_
    simp only [PlacedNote.place, List.filter_map, Function.comp_def, htaken.quiet_eq hview]
  rw [scope_document, scope_document, ← Scope.recordAll_filter, hnotes, Scope.recordAll_filter]

end Program

end ShaderScript
