import Mathlib.Data.List.Basic
import ShaderScript.Proofs.Encoder.Functions

/-!
# What the encoder puts back

Every walk of the encoder leaves it where it was, and only adds to what it has found. So the next
statement of a program starts at the top level again, and the document that the encoder writes is
the one that is put together from the sections.
-/

namespace ShaderScript

open Script

/-! ## The table of overloads -/

namespace Overloads

theorem length_places (name : String) (index : Nat) (nodes : List Node) :
    (places name index nodes).length = (functionNames nodes).count name := by
  induction nodes generalizing index with
  | nil => rfl
  | cons node nodes ih =>
    rw [places, List.length_append, ih]
    cases node with
    | function function =>
      by_cases hname : name = function.name
      · simp [functionNames, hname, Nat.add_comm]
      · simp [functionNames, hname, Ne.symm hname]
    | _ => simp [functionNames]

theorem places_append (name : String) (index : Nat) (before nodes : List Node) :
    places name index (before ++ nodes) =
      places name index before ++ places name (index + before.length) nodes := by
  induction before generalizing index with
  | nil => rfl
  | cons node before ih =>
    rw [List.cons_append, places, places, ih, List.append_assoc, List.length_cons]
    congr 3
    omega

theorem lt_of_mem_places {name : String} {index place : Nat} {nodes : List Node}
    (h : place ∈ places name index nodes) : place < index + nodes.length := by
  induction nodes generalizing index with
  | nil => cases h
  | cons node nodes ih =>
    rw [List.length_cons]
    obtain hnode | hnodes := List.mem_append.mp h
    · have hplace : place = index := by
        split at hnode
        · exact List.mem_singleton.mp hnode
        · cases hnode
      omega
    · have := ih hnodes
      omega

theorem idxOf?_append_of_notMem {before after : List Nat} {place : Nat} (h : place ∉ before) :
    (before ++ place :: after).idxOf? place = some before.length := by
  induction before with
  | nil => simp [List.idxOf?_cons]
  | cons first before ih =>
    obtain ⟨hfirst, hbefore⟩ := not_or.mp (mt List.mem_cons.mpr h)
    simp [List.idxOf?_cons, ih hbefore, Ne.symm hfirst]

theorem lookup_map_self (names : List String) (f : String → List Nat) (name : String) :
    (names.map fun entry => (entry, f entry)).lookup name =
      if name ∈ names then some (f name) else none := by
  induction names with
  | nil => rfl
  | cons first rest ih =>
    rw [List.map_cons, List.lookup_cons, ih]
    by_cases hname : name = first
    · simp [hname]
    · simp [hname, beq_false_of_ne hname]

/-- The table tells how many functions of the name there are, and how many of them come earlier. -/
theorem member?_ofNodes (before after : List Node) (function : FunctionDecl Node) :
    (ofNodes (before ++ .function function :: after)).member? function.name before.length =
      Overload.of? (functionNames (before ++ .function function :: after)) (functionNames before)
        function.name := by
  have hmem : function.name ∈ functionNames (before ++ .function function :: after) := by
    simp [functionNames]
  have hplace : (places function.name 0 (before ++ .function function :: after)).idxOf?
      before.length = some ((functionNames before).count function.name) := by
    have hearlier : before.length ∉ places function.name 0 before := fun hm => by
      have := lt_of_mem_places hm
      omega
    rw [places_append, places, if_pos (by simp [functionNames]), Nat.zero_add,
      List.singleton_append, idxOf?_append_of_notMem hearlier, length_places]
  simp only [member?, ofNodes, lookup_map_self, List.mem_filter, List.mem_eraseDups, hmem, true_and,
    length_places, decide_eq_true_eq, Overload.of?]
  split
  · simp [hplace, length_places]
  · rfl

end Overloads

/-! ## The document -/

section Documents

variable (options : Options) (overloads : Overloads)

/-- The encoder at the top level of a document. -/
def Encoder.atTop (scope : Scope) (diagnostics : List Diagnostic) : Encoder where
  options
  scope
  bound := []
  overloads
  depth := options.depth
  block := .module
  initializing := false
  diagnostics

variable {options overloads} {all earlier : List String} {scope : Scope}
  {diagnostics : List Diagnostic}

/-- A function is emitted at the depth of the document, and its table entry is its overload. -/
theorem encodeFunction_atTop {index : Nat} {function : FunctionDecl Node}
    (h : overloads.member? function.name index = Overload.of? all earlier function.name) :
    encodeFunction function index (.atTop options overloads scope diagnostics) =
      let current := Section.ofFunction options all earlier function
      some (current.text, .atTop options overloads (scope.recordAll current.notes)
        (diagnostics ++ ShaderScript.diagnostics current.notes)) := by
  have hbody : (Encoder.atTop options overloads scope diagnostics).functionBody function =
      function.emitBody options := by
    rw [FunctionDecl.emitBody, emitAll_eq_map]
    rfl
  have hafter : (Encoder.atTop options overloads scope diagnostics).afterBody function =
      .atTop options overloads
        (scope.recordAll (PlacedNote.place function.boundNames (function.emitBody options).notes))
        (diagnostics ++ ShaderScript.diagnostics
          (PlacedNote.place function.boundNames (function.emitBody options).notes)) := by
    rw [← hbody]
    rfl
  rw [encodeFunction_eq, hbody, hafter]
  change some (function.textAt options options.depth (overloads.member? function.name index) _,
    Encoder.take _ (function.ownNotes (overloads.member? function.name index))) = _
  rw [h, FunctionDecl.textAt_depth]
  simp only [Encoder.take, Encoder.atTop, Section.ofFunction, Scope.recordAll_append,
    ShaderScript.diagnostics, List.filterMap_append, List.append_assoc]

/-- Each statement leaves the encoder at the top level, with the notes of its section. -/
theorem encodeSection_eq {index : Nat} {node : Node}
    (h : ∀ function, node = .function function →
      overloads.member? function.name index = Overload.of? all earlier function.name) :
    encodeSection index node (.atTop options overloads scope diagnostics) =
      let current := Section.ofNode options all earlier node
      some (current.text, .atTop options overloads (scope.recordAll current.notes)
        (diagnostics ++ ShaderScript.diagnostics current.notes)) := by
  have hnode := (node.agrees (Section.context options)).bind_pure (· ++ ";\n")
    (.atTop options overloads scope diagnostics) rfl
  cases node with
  | function function => exact encodeFunction_atTop (h function rfl)
  | _ => exact hnode

/-- From the statements before, the sections of the statements that follow are written one after
the other. -/
theorem encodeSections_eq (options : Options) (scope : Scope) (diagnostics : List Diagnostic)
    {program : List Node} (before nodes : List Node) (hprogram : program = before ++ nodes)
    (previous : Option Node) (code : String) :
    encodeSections previous before.length code nodes
        (.atTop options (.ofNodes program) scope diagnostics) =
      let parts := sections options (functionNames program) (functionNames before) previous nodes
      let notes := parts.flatMap Section.notes
      some (code ++ String.join (parts.map Section.text),
        .atTop options (.ofNodes program) (scope.recordAll notes)
          (diagnostics ++ ShaderScript.diagnostics notes)) := by
  induction nodes generalizing before previous code scope diagnostics with
  | nil =>
    simp only [sections, List.flatMap_nil, List.map_nil, String.join_nil, String.append_empty,
      Scope.recordAll, List.foldl_nil, ShaderScript.diagnostics, List.filterMap_nil,
      List.append_nil]
    rfl
  | cons node nodes ih =>
    have hdepth : Encoding.depth (.atTop options (.ofNodes program) scope diagnostics) =
        some (options.depth, .atTop options (.ofNodes program) scope diagnostics) := rfl
    have hmember : ∀ function, node = .function function →
        (Overloads.ofNodes program).member? function.name before.length =
          Overload.of? (functionNames program) (functionNames before) function.name := by
      rintro function rfl
      rw [hprogram]
      exact Overloads.member?_ofNodes before nodes function
    have hnames : functionNames (before ++ [node]) = functionNames before ++ functionNames [node] :=
      List.filterMap_append
    have hrest (scope : Scope) (diagnostics : List Diagnostic) :=
      ih scope diagnostics (before ++ [node]) (by simp [hprogram]) (some node)
    simp only [List.length_append, List.length_singleton, hnames] at hrest
    rw [encodeSections, Encoding.run_bind hdepth, Encoding.run_bind (encodeSection_eq hmember),
      hrest]
    simp only [sections, List.flatMap_cons, List.map_cons, String.join_cons, Scope.recordAll_append,
      ShaderScript.diagnostics, List.filterMap_append, String.append_assoc, List.append_assoc]

end Documents

/-- The encoder writes the document that is put together from the sections. -/
theorem Program.encode_eq_document (program : Program) (options : Options) :
    program.encode options = some (program.document options) := by
  have hstart : program.encodeBody options (.new options (.ofNodes program.body)) =
      encodeSections none 0 "\n" program.body
        (.atTop options (.ofNodes program.body) .empty []) := by
    obtain ⟨closure, reference, revision⟩ := options
    cases closure <;> rfl
  have hrun := hstart.trans (encodeSections_eq options .empty [] [] program.body rfl none "\n")
  rw [Program.encode, hrun]
  rfl

/-- **What the encoder puts back.** From every state, the walk over a node, over a body and over a
function succeeds, so that no level is left that was not entered. It ends where it began, with
nothing taken from what had been found; only a function leaves no name bound. The text of a node is
never empty. Texts and notes are those of the recursion over the tree, and so is the document. -/
theorem encoder_puts_back (encoder : Encoder) :
    (∀ node,
      let fragment := emit encoder.context node
      encode node encoder = some (fragment.text, encoder.take fragment.notes) ∧
        encoder.Continues (encoder.take fragment.notes) ∧ fragment.text ≠ "") ∧
    (∀ nodes,
      let fragment := emitBody encoder.context.deeper nodes
      encodeBody nodes encoder = some (fragment.text, encoder.take fragment.notes) ∧
        encoder.Continues (encoder.take fragment.notes)) ∧
    (∀ function index,
      let overload := encoder.overloads.member? function.name index
      let later := (encoder.afterBody function).take (function.ownNotes overload)
      encodeFunction function index encoder =
          some (function.textAt encoder.options encoder.depth overload
            (encoder.functionBody function).text, later) ∧
        Encoder.Continues { encoder with bound := [] } later) ∧
    ∀ program : Program, program.encode encoder.options =
      some (program.document encoder.options) := by
  refine ⟨fun node => ⟨?_, ?_, ?_⟩, fun nodes => ⟨?_, ?_⟩, fun function index => ⟨?_, ?_⟩,
    fun program => ?_⟩
  · exact node.agrees encoder.context encoder rfl
  · exact encoder.continues_take _
  · exact text_emit_ne_empty encoder.context node
  · exact gives_body encoder.context (fun node _ => node.agrees) encoder rfl
  · exact encoder.continues_take _
  · exact encodeFunction_eq encoder function index
  · exact (encoder.continues_afterBody function).trans (Encoder.continues_take _ _)
  · exact program.encode_eq_document encoder.options

end ShaderScript
