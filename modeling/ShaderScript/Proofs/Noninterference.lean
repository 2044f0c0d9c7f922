import ShaderScript.Proofs.TopLevel

/-!
# What options can change

The revision shows in the first line of a document and nowhere else. How uniforms are bound shows in
the values of their declarations, and in the imports these values need: the body of a document is a
sheet that has every uniform of its text as a place to be filled, the globals are the same, and so
are the defects that are found.
-/

namespace ShaderScript

open Script

/-- The text without its first line. -/
def afterFirstLine (text : String) : String :=
  String.ofList ((text.toList.dropWhile (· != '\n')).drop 1)

theorem afterFirstLine_append {line : String} (h : Unbroken line) (rest : String) :
    afterFirstLine (line ++ ("\n" ++ rest)) = rest := by
  have hline : ∀ c ∈ line.toList, (c != '\n') = true := by
    intro c hc
    rw [bne_iff_ne]
    rintro rfl
    exact h hc
  have hbreak : ("\n" ++ rest).toList = '\n' :: rest.toList := by
    rw [String.toList_append]
    rfl
  rw [afterFirstLine, String.toList_append, List.dropWhile_append_of_pos hline, hbreak]
  simp

theorem afterFirstLine_title {revision : String} (h : Unbroken revision) (rest : String) :
    afterFirstLine ("// Three.js Transpiler r" ++ revision ++ "\n\n" ++ rest) = "\n" ++ rest := by
  have htitle : Unbroken "// Three.js Transpiler r" := by decide
  have hbreaks : "\n\n" = "\n" ++ "\n" := rfl
  have hline := afterFirstLine_append (unbroken_append.mpr ⟨htitle, h⟩) ("\n" ++ rest)
  rw [hbreaks]
  simpa only [String.append_assoc] using hline

/-! ## The uniforms of a document -/

/-- The uniforms whose declarations stand in the text of a top-level statement. -/
def Node.statementUniforms : Node → List (String × String)
  | .function declared => declared.body.flatMap Node.shownUniforms
  | node => node.shownUniforms

/-- The uniforms whose declarations stand in the body of a document, in the order of the text. -/
def Program.shownUniforms (program : Program) : List (String × String) :=
  program.body.flatMap Node.statementUniforms

theorem Node.contains_of_mem_statementUniforms {node : Node} {name type : String}
    (h : (name, type) ∈ node.statementUniforms) : node.Contains (.uniform name type) := by
  cases node with
  | function declared =>
    obtain ⟨inner, hinner, hmem⟩ := List.mem_flatMap.mp h
    exact .head hinner (contains_of_mem_shownUniforms hmem)
  | _ => exact contains_of_mem_shownUniforms h

theorem map_walk (before nodes : List Node) :
    (walk before nodes).map (fun place => place.2.1) = nodes := by
  induction nodes generalizing before with
  | nil => rfl
  | cons node after ih => rw [walk, List.map_cons, ih]

section Laid

variable {lead : String} (hlead : Unbroken lead)
include hlead

/-- The declarations of a statement are laid out with the uniforms of the statement. -/
theorem exists_laid_declarations (before : List Node) (node : Node) (after : List Node)
    (depth : Nat) :
    ∃ parts texts, List.Forall₂ (Laid fun _ => True) parts texts ∧
      parts.flatten = node.statementUniforms ∧
      ∀ view : View, declarations view.reference (view.margin + depth) (fun _ => lead) before node
        after = texts.map (· view) := by
  have hconstants :=
    FunctionConstant.laid (fun _ _ => trivial) node.fits_anything before after depth
  have hsemicolon : Unbroken ";" := by decide
  have hstatement := (node.fits_anything.draws (topLevel depth)).text.after hsemicolon
  cases node with
  | function declared =>
    refine ⟨_, _, forall₂_map fun constant hc => (hconstants constant hc).before hlead, ?_, ?_⟩
    · obtain ⟨name, hone | ⟨members, htwo⟩⟩ := functionConstants_cases before after declared
      · simp [hone, FunctionConstant.shownUniforms, Node.statementUniforms]
      · simp [htwo, FunctionConstant.shownUniforms, Node.statementUniforms]
    · intro view
      obtain ⟨name, hone | ⟨members, htwo⟩⟩ := functionConstants_cases before after declared
      · simp [declarations, hone]
      · simp [declarations, htwo]
  | _ => exact ⟨_, _, .cons hstatement .nil, by simp [Node.statementUniforms], fun view => rfl⟩

theorem laid_placedText (before : List Node) (node : Node) (after : List Node) (depth : Nat) :
    Laid (fun _ => True) node.statementUniforms fun view =>
      Body.gap before.getLast? node ++ tabs depth ++ "\n\n".intercalate (declarations view.reference
        (view.margin + depth) (fun _ => lead) before node after) ++ "\n" := by
  have hfixed (text : String) : Laid (fun _ => True) [] fun _ => text := .own (.inr trivial)
  obtain ⟨parts, texts, hlaid, huniforms, hread⟩ :=
    exists_laid_declarations hlead before node after depth
  have hstatement := ((hfixed (Body.gap before.getLast? node ++ tabs depth)).append
    (.intercalate (hfixed "\n\n") hlaid)).append (hfixed "\n")
  simpa only [hread, huniforms, List.nil_append, List.append_nil] using hstatement

/-- The body of a document is one sheet, however uniforms are bound. -/
theorem Program.exists_sheet (program : Program) (depth : Nat) :
    ∃ sheet : Sheet, sheet.uniforms = program.shownUniforms ∧ ∀ reference,
      program.bodyText reference depth (fun _ => lead) =
        sheet.render (initializer reference) 0 := by
  have hfixed : Laid (fun _ => True) [] fun _ => "\n" := .own (.inr trivial)
  have hplaces : List.Forall₂ (Laid fun _ => True) _ ((walk [] program.body).map _) :=
    forall₂_map fun place _ => laid_placedText hlead place.1 place.2.1 place.2.2 depth
  obtain ⟨sheet, -, huniforms, hread⟩ := hfixed.append (.joined hplaces)
  have hnodes : program.shownUniforms = ((walk [] program.body).map fun place =>
      place.2.1.statementUniforms).flatten := by
    rw [shownUniforms, ← List.flatMap_def]
    nth_rewrite 1 [← map_walk [] program.body]
    rw [List.flatMap_map]
  refine ⟨sheet, by rw [huniforms, hnodes, List.nil_append], fun reference => ?_⟩
  have hbody := hread ⟨reference, 0⟩
  simp only [List.map_map, Function.comp_def, Nat.zero_add] at hbody
  exact hbody

end Laid

/-! ## Documents -/

theorem declaredNames_of_traces (notes : List PlacedNote) :
    declaredNames notes = (notes.filterMap fun placed => placed.note.trace?).filterMap fun trace =>
      match trace with
      | .declared name => some name
      | _ => none := by
  rw [List.filterMap_filterMap, declaredNames]
  refine List.filterMap_congr fun placed _ => ?_
  cases placed.note <;> rfl

theorem defects_of_traces (notes : List PlacedNote) :
    (diagnostics notes).map Diagnostic.defect =
      (notes.filterMap fun placed => placed.note.trace?).filterMap fun trace =>
        match trace with
        | .defect kind => some kind
        | _ => none := by
  rw [List.filterMap_filterMap, diagnostics, List.map_filterMap]
  refine List.filterMap_congr fun placed _ => ?_
  cases placed.note <;> rfl

namespace Program

/-- No option changes what is declared. -/
theorem globals_congr (program : Program) (options other : Options) :
    (program.document options).scope.globals = (program.document other).scope.globals := by
  rw [scope_document, scope_document, Scope.globals_recordAll, Scope.globals_recordAll,
    declaredNames_of_traces, declaredNames_of_traces, program.traces_congr options other]

/-- No option changes which defects are found. -/
theorem defects_congr (program : Program) (options other : Options) :
    (program.document options).diagnostics.map Diagnostic.defect =
      (program.document other).diagnostics.map Diagnostic.defect := by
  rw [diagnostics_document, diagnostics_document, defects_of_traces, defects_of_traces,
    program.traces_congr options other]

theorem shownUniforms_eq_nil {program : Program}
    (h : ∀ node ∈ program.body, ∀ name type, ¬ node.Contains (.uniform name type)) :
    program.shownUniforms = [] := by
  refine List.eq_nil_iff_forall_not_mem.mpr fun ⟨name, type⟩ hmem => ?_
  obtain ⟨node, hnode, huniform⟩ := List.mem_flatMap.mp hmem
  exact h node hnode name type (Node.contains_of_mem_statementUniforms huniform)

end Program

theorem unbroken_lead (options : Options) : Unbroken options.lead := by
  unfold Options.lead
  split <;> decide

section Render

variable {document other : Document} (hclosure : document.options.closure = other.options.closure)
  (hscope : document.scope = other.scope) (hbody : document.body = other.body)
include hclosure hscope hbody

theorem render_congr (hrevision : document.options.revision = other.options.revision) :
    document.render = other.render := by
  obtain ⟨⟨closure, reference, revision⟩, scope, body, found⟩ := document
  obtain ⟨⟨_, _, _⟩, _, _, _⟩ := other
  obtain rfl := hclosure
  obtain rfl := hscope
  obtain rfl := hbody
  obtain rfl := hrevision
  rfl

/-- The revision shows in the first line only. -/
theorem afterFirstLine_render_congr (h : Unbroken document.options.revision)
    (hother : Unbroken other.options.revision) :
    afterFirstLine document.render = afterFirstLine other.render := by
  obtain ⟨⟨closure, reference, revision⟩, scope, body, found⟩ := document
  obtain ⟨⟨_, _, changed⟩, _, _, _⟩ := other
  obtain rfl := hclosure
  obtain rfl := hscope
  obtain rfl := hbody
  unfold Document.render Document.header Document.footer
  conv_lhs => rw [String.append_assoc, String.append_assoc, afterFirstLine_title h]
  conv_rhs => rw [String.append_assoc, String.append_assoc, afterFirstLine_title hother]

end Render

/-- How the options of a document interfere with it. Revisions without a line break show in the
first line and nowhere else. Whether uniforms are bound to an outside store shows neither in the
globals nor in the kinds of the defects that are found, and in the body only in the values of the
uniforms that are declared there: both bodies are readings of one sheet, which leaves open the value
of each of them and nothing else. Without uniforms it does not show at all. -/
theorem options_noninterference (program : Program) (closure : Bool) :
    (∀ reference revision other, Unbroken revision → Unbroken other →
      let document := program.document ⟨closure, reference, revision⟩
      let changed := program.document ⟨closure, reference, other⟩
      afterFirstLine document.render = afterFirstLine changed.render ∧
        document.diagnostics = changed.diagnostics) ∧
    ∀ revision,
      let own := program.document ⟨closure, false, revision⟩
      let bound := program.document ⟨closure, true, revision⟩
      own.scope.globals = bound.scope.globals ∧
        own.diagnostics.map Diagnostic.defect = bound.diagnostics.map Diagnostic.defect ∧
        (∃ sheet : Sheet, sheet.uniforms = program.shownUniforms ∧
          own.body = sheet.render (initializer false) 0 ∧
          bound.body = sheet.render (initializer true) 0) ∧
        ((∀ node ∈ program.body, ∀ name type, ¬ node.Contains (.uniform name type)) →
          own.render = bound.render ∧ own.diagnostics = bound.diagnostics) := by
  constructor
  · intro reference revision other hrevision hother document changed
    have hbody : document.body = changed.body :=
      (program.body_document ⟨closure, reference, revision⟩).trans
        (program.body_document ⟨closure, reference, other⟩).symm
    have hnotes : program.notes ⟨closure, reference, revision⟩ =
        program.notes ⟨closure, reference, other⟩ := program.notes_congr rfl
    refine ⟨afterFirstLine_render_congr rfl (program.scope_congr rfl) hbody hrevision hother, ?_⟩
    rw [Program.diagnostics_document, Program.diagnostics_document, hnotes]
  · intro revision own bound
    obtain ⟨sheet, huniforms, hread⟩ := program.exists_sheet
      (unbroken_lead ⟨closure, false, revision⟩) (Options.depth ⟨closure, false, revision⟩)
    have hown : own.body = sheet.render (initializer false) 0 :=
      (program.body_document _).trans (hread false)
    have hbound : bound.body = sheet.render (initializer true) 0 :=
      (program.body_document _).trans (hread true)
    refine ⟨program.globals_congr _ _, program.defects_congr _ _, ⟨sheet, huniforms, hown, hbound⟩,
      fun hnone => ?_⟩
    have hnotes : program.notes ⟨closure, false, revision⟩ =
        program.notes ⟨closure, true, revision⟩ := Program.notes_congr_of_margin hnone rfl
    have hbodies : own.body = bound.body := by
      rw [hown, hbound]
      refine Sheet.render_congr fun name type hmem => ?_
      rw [huniforms, Program.shownUniforms_eq_nil hnone] at hmem
      cases hmem
    refine ⟨render_congr rfl ?_ hbodies rfl, ?_⟩
    · rw [Program.scope_document, Program.scope_document, hnotes]
    · rw [Program.diagnostics_document, Program.diagnostics_document, hnotes]

/-- A texture that is bound to an outside store, under two revisions; and the same program without
the texture, for both ways to bind uniforms. -/
theorem options_noninterference_texture :
    let textured : Program := ⟨[.uniform "map" "sampler2D", .accessor "map"]⟩
    let plain : Program := ⟨[.accessor "map"]⟩
    Unbroken "170" ∧ Unbroken "171" ∧
      afterFirstLine (textured.document ⟨true, true, "170"⟩).render =
        afterFirstLine (textured.document ⟨true, true, "171"⟩).render ∧
      (∀ node ∈ plain.body, ∀ name type, ¬ node.Contains (.uniform name type)) ∧
      (plain.document ⟨true, false, "170"⟩).render =
        (plain.document ⟨true, true, "170"⟩).render := by
  intro textured plain
  have hfirst : Unbroken "170" := by decide
  have hsecond : Unbroken "171" := by decide
  have hnone : ∀ node ∈ plain.body, ∀ name type, ¬ node.Contains (.uniform name type) := by
    intro node hnode name type hcontains
    obtain rfl := List.mem_singleton.mp hnode
    obtain heq | ⟨part, hpart, -⟩ := Relation.ReflTransGen.cases_head hcontains
    · cases heq
    · cases hpart
  obtain ⟨hrevision, -⟩ := options_noninterference textured true
  obtain ⟨-, hreference⟩ := options_noninterference plain true
  obtain ⟨-, -, -, hplain⟩ := hreference "170"
  exact ⟨hfirst, hsecond, (hrevision true "170" "171" hfirst hsecond).1, hnone, (hplain hnone).1⟩

end ShaderScript
