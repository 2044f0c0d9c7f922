import ShaderScript.Proofs.Bindings

/-!
# Every import is called for

The imports grow by one name at a time. A name that is added is required by the text of a statement,
or it is a name of the library that was mentioned where no global name and no parameter hid it. One
note can do no more than that, so neither can a node, a function or a whole run; and a name that is
global in time is never imported afterwards.
-/

namespace ShaderScript

namespace Scope

/-! ## Each name once -/

theorem nodup_addName {names : List String} (h : names.Nodup) (name : String) :
    (addName names name).Nodup := by
  unfold addName
  split
  · exact h
  · rename_i hnew
    rw [List.nodup_append']
    exact ⟨h, List.nodup_singleton name, List.disjoint_singleton.mpr hnew⟩

/-- No scope lists a name twice. -/
def Distinct (scope : Scope) : Prop :=
  scope.imports.Nodup ∧ scope.globals.Nodup

theorem distinct_record {scope : Scope} (h : scope.Distinct) (placed : PlacedNote) :
    (scope.record placed).Distinct := by
  obtain ⟨bound, note⟩ := placed
  cases note with
  | mention full =>
    simp only [record]
    split
    · exact ⟨nodup_addName h.1 _, h.2⟩
    · exact h
  | require name => exact ⟨nodup_addName h.1 name, h.2⟩
  | declare name => exact ⟨h.1, nodup_addName h.2 name⟩
  | report diagnostic => exact h

theorem distinct_recordAll {scope : Scope} (h : scope.Distinct) (notes : List PlacedNote) :
    (scope.recordAll notes).Distinct := by
  induction notes generalizing scope with
  | nil => exact h
  | cons placed notes ih =>
    rw [recordAll_cons]
    exact ih (distinct_record h placed)

theorem distinct_document (program : Program) (options : Options) :
    (program.document options).scope.Distinct :=
  distinct_recordAll ⟨List.nodup_nil, List.nodup_nil⟩ _

/-! ## Names that are added -/

/-- A name that the second scope imports and the first does not is one of the `allowed` ones, or a
name of the library that is not global in the first scope and not one of the `hidden` ones. -/
def Adds (allowed hidden : List String) (before after : Scope) : Prop :=
  ∀ name ∈ after.imports, name ∉ before.imports →
    name ∈ allowed ∨ Library.isSymbol name ∧ name ∉ before.globals ∧ name ∉ hidden

variable {allowed hidden : List String} {before middle after : Scope}

theorem Adds.refl (scope : Scope) : Adds allowed hidden scope scope :=
  fun _ hafter hbefore => absurd hafter hbefore

theorem Adds.trans (h : Adds allowed hidden before middle)
    (hnext : Adds allowed hidden middle after) (hglobals : before.globals ⊆ middle.globals) :
    Adds allowed hidden before after := by
  intro name hafter hbefore
  by_cases hmiddle : name ∈ middle.imports
  · exact h name hmiddle hbefore
  · obtain hallowed | ⟨hsymbol, hglobal, hhidden⟩ := hnext name hafter hmiddle
    · exact .inl hallowed
    · exact .inr ⟨hsymbol, fun hg => hglobal (hglobals hg), hhidden⟩

theorem globals_subset_record (scope : Scope) (placed : PlacedNote) :
    scope.globals ⊆ (scope.record placed).globals :=
  fun _ hname => mem_globals_record.mpr (.inl hname)

/-- One note adds at most one name. -/
theorem adds_record (scope : Scope) {placed : PlacedNote}
    (hrequired : ∀ name, placed.note = .require name → name ∈ allowed)
    (hbound : hidden ⊆ placed.bound) : Adds allowed hidden scope (scope.record placed) := by
  intro name hafter hbefore
  obtain hold | himports := mem_imports_record.mp hafter
  · exact absurd hold hbefore
  · cases himports with
    | mention _ hsymbol hglobal hfree =>
      exact .inr ⟨hsymbol, hglobal, fun hhidden => hfree (hbound hhidden)⟩
    | require => exact .inl (hrequired name rfl)

theorem adds_recordAll (scope : Scope) {notes : List PlacedNote}
    (hrequired : ∀ placed ∈ notes, ∀ name, placed.note = .require name → name ∈ allowed)
    (hbound : ∀ placed ∈ notes, hidden ⊆ placed.bound) :
    Adds allowed hidden scope (scope.recordAll notes) := by
  induction notes generalizing scope with
  | nil => exact Adds.refl scope
  | cons placed notes ih =>
    rw [List.forall_mem_cons] at hrequired hbound
    rw [recordAll_cons]
    have hfirst := adds_record scope hrequired.1 hbound.1
    exact hfirst.trans (ih _ hrequired.2 hbound.2) (globals_subset_record scope placed)

/-- Notes that were taken in one place. -/
theorem adds_place (scope : Scope) (bound : List String) {notes : List Note}
    (hrequired : ∀ name, .require name ∈ notes → name ∈ allowed) :
    Adds allowed bound scope (scope.recordAll (PlacedNote.place bound notes)) := by
  refine adds_recordAll scope ?_ ?_
  · intro placed hplaced name hnote
    obtain ⟨note, hmem, rfl⟩ := List.mem_map.mp hplaced
    obtain rfl : note = .require name := hnote
    exact hrequired name hmem
  · intro placed hplaced
    obtain ⟨note, -, rfl⟩ := List.mem_map.mp hplaced
    exact List.Subset.refl bound

end Scope

/-! ## Nodes and functions -/

theorem required_of_mem_emit {context : Context} {node : Node} {name : String}
    (h : .require name ∈ (emit context node).notes) : name ∈ statementNames :=
  Node.required_of_bears ((leavesSeen node context).mp (leaves_required.mpr h))

theorem required_of_mem_emitBody {options : Options} {function : FunctionDecl Node} {name : String}
    (h : .require name ∈ (function.emitBody options).notes) : name ∈ statementNames := by
  obtain ⟨node, -, hbears⟩ := (leaves_functionBody options function).mp (leaves_required.mpr h)
  exact Node.required_of_bears hbears

theorem required_of_mem_ofFunction {options : Options} {all earlier : List String}
    {function : FunctionDecl Node} {placed : PlacedNote} {name : String}
    (h : placed ∈ (Section.ofFunction options all earlier function).notes)
    (hnote : placed.note = .require name) : name ∈ "Fn" :: statementNames := by
  rcases List.mem_append.mp h with hbody | hown
  · obtain ⟨note, hmem, rfl⟩ := List.mem_map.mp hbody
    obtain rfl : note = .require name := hnote
    exact List.mem_cons_of_mem _ (required_of_mem_emitBody hmem)
  · obtain ⟨note, hmem, rfl⟩ := List.mem_map.mp hown
    obtain rfl : note = .require name := hnote
    obtain hfn | hdeclared := (leaves_ownNotes function _).mp (leaves_required.mpr hmem)
    · cases hfn
      exact List.mem_cons_self
    · cases hdeclared

/-! ## Runs -/

/-- A name that is global at some point of a run, and not imported up to there, is never imported,
unless it is one of those that text is built with. -/
theorem not_imported_after_global {program : Program} {options : Options}
    {before after : List PlacedNote} (h : program.notes options = before ++ after) {name : String}
    (hfree : name ∉ "Fn" :: statementNames)
    (hglobal : name ∈ (Scope.empty.recordAll before).globals)
    (hnew : name ∉ (Scope.empty.recordAll before).imports) :
    name ∉ (program.document options).scope.imports := by
  have hadds : Scope.Adds ("Fn" :: statementNames) [] (Scope.empty.recordAll before)
      ((Scope.empty.recordAll before).recordAll after) := by
    refine Scope.adds_recordAll _ ?_ fun _ _ => List.nil_subset _
    intro placed hplaced name hnote
    exact required_of_mem_notes (h ▸ List.mem_append_right before hplaced) hnote
  have hscope : (program.document options).scope =
      (Scope.empty.recordAll before).recordAll after := by
    rw [← Scope.recordAll_append, ← h]
    rfl
  intro himport
  rw [hscope] at himport
  obtain hallowed | ⟨-, hnot, -⟩ := hadds name himport hnew
  · exact hfree hallowed
  · exact hnot hglobal

/-- Imports are sound. The import list of a document has no name twice and only names of the
library. From any scope on, a node adds the names of its statements, and names of the library that
no global name and no bound name hides; a function adds its own combinator as well, and the
parameters of the function are hidden while its body is emitted. So a name that becomes global
before it is imported stays out of the imports. -/
theorem imports_called_for (program : Program) (options : Options) :
    (program.document options).scope.imports.Nodup ∧
      (∀ name ∈ (program.document options).scope.imports, Library.isSymbol name) ∧
      (∀ (scope : Scope) (bound : List String) (context : Context) (node : Node),
        Scope.Adds statementNames bound scope
          (scope.recordAll (PlacedNote.place bound (emit context node).notes))) ∧
      (∀ (scope : Scope) (all earlier : List String) (function : FunctionDecl Node),
        Scope.Adds statementNames function.boundNames scope
            (scope.recordAll
              (PlacedNote.place function.boundNames (function.emitBody options).notes)) ∧
          Scope.Adds ("Fn" :: statementNames) [] scope
            (scope.recordAll (Section.ofFunction options all earlier function).notes)) ∧
      ∀ before after, program.notes options = before ++ after →
        ∀ name ∉ "Fn" :: statementNames, name ∈ (Scope.empty.recordAll before).globals →
          name ∉ (Scope.empty.recordAll before).imports →
            name ∉ (program.document options).scope.imports := by
  refine ⟨(Scope.distinct_document program options).1, fun name => isSymbol_of_mem_imports,
    ?_, ?_, ?_⟩
  · intro scope bound context node
    exact Scope.adds_place scope bound fun name => required_of_mem_emit
  · intro scope all earlier function
    refine ⟨Scope.adds_place scope _ fun name => required_of_mem_emitBody, ?_⟩
    exact Scope.adds_recordAll scope (fun placed hplaced name => required_of_mem_ofFunction hplaced)
      fun _ _ => List.nil_subset _
  · intro before after hnotes name hfree hglobal hnew
    exact not_imported_after_global hnotes hfree hglobal hnew

/-- A uniform that has the name of a library value keeps it out of the imports. -/
theorem imports_called_for_past_uniform :
    let program : Program := ⟨[.uniform "time" "float", .accessor "time"]⟩
    let before := (program.notes .default).take 1
    "time" ∈ (Scope.empty.recordAll before).globals ∧
      "time" ∉ (Scope.empty.recordAll before).imports ∧
      "time" ∉ (program.document .default).scope.imports := by
  intro program before
  have hglobal : "time" ∈ (Scope.empty.recordAll before).globals := by decide +kernel
  have hnew : "time" ∉ (Scope.empty.recordAll before).imports := by decide +kernel
  obtain ⟨-, -, -, -, hstays⟩ := imports_called_for program .default
  exact ⟨hglobal, hnew, hstays before ((program.notes .default).drop 1)
    (List.take_append_drop 1 _).symm "time" (by decide) hglobal hnew⟩

end ShaderScript
