import ShaderScript.Proofs.Overloads

/-!
# Programs that go on

Statements are emitted one after another, and what is noted about one of them is recorded before the
next one is looked at. So a program keeps its globals and its diagnostics when more statements
follow it. Its text and its imports can change in one way only: a function that follows may share
its name with one before, which then becomes a numbered overload.
-/

namespace ShaderScript

/-! ## Scopes that grow -/

namespace Scope

theorem prefix_addName (names : List String) (name : String) : names <+: addName names name := by
  unfold addName
  split
  · exact List.prefix_refl names
  · exact List.prefix_append names [name]

/-- New names are put behind the old ones. -/
theorem imports_prefix_record (scope : Scope) (placed : PlacedNote) :
    scope.imports <+: (scope.record placed).imports := by
  obtain ⟨bound, note⟩ := placed
  cases note with
  | mention full =>
    simp only [record]
    split
    · exact prefix_addName _ _
    · exact List.prefix_refl _
  | require name => exact prefix_addName _ _
  | declare name => exact List.prefix_refl _
  | report diagnostic => exact List.prefix_refl _

theorem imports_prefix_recordAll (scope : Scope) (notes : List PlacedNote) :
    scope.imports <+: (scope.recordAll notes).imports := by
  induction notes generalizing scope with
  | nil => exact List.prefix_refl _
  | cons placed notes ih =>
    rw [recordAll_cons]
    exact (imports_prefix_record scope placed).trans (ih _)

theorem prefix_foldl_addName (names rest : List String) : names <+: rest.foldl addName names := by
  induction rest generalizing names with
  | nil => exact List.prefix_refl names
  | cons name rest ih => exact (prefix_addName names name).trans (ih _)

end Scope

/-! ## Sections of a program that goes on -/

section Sections

variable (options : Options)

theorem sections_append (all earlier : List String) (previous : Option Node)
    (front back : List Node) :
    sections options all earlier previous (front ++ back) =
      sections options all earlier previous front ++ sections options all
        (earlier ++ functionNames front) (front.getLast?.or previous) back := by
  induction front generalizing earlier previous with
  | nil => simp [sections, functionNames]
  | cons node front ih =>
    rw [List.cons_append, sections, sections, ih, functionNames_cons node front,
      List.getLast?_cons, List.append_assoc, List.cons_append]
    cases front.getLast? <;> rfl

/-- The place of a function among others is known from how many have its name. -/
theorem of?_congr {all others : List String} (earlier : List String) {name : String}
    (h : all.count name = others.count name) :
    Overload.of? all earlier name = Overload.of? others earlier name := by
  simp only [Overload.of?, h]

theorem sections_congr {all others : List String} (earlier : List String) (previous : Option Node)
    {nodes : List Node} (h : ∀ name ∈ functionNames nodes, all.count name = others.count name) :
    sections options all earlier previous nodes =
      sections options others earlier previous nodes := by
  induction nodes generalizing earlier previous with
  | nil => rfl
  | cons node nodes ih =>
    rw [functionNames_cons, List.forall_mem_append] at h
    have hnode : Section.ofNode options all earlier node =
        Section.ofNode options others earlier node := by
      cases node with
      | function declaration =>
        have hplace := of?_congr earlier (h.1 declaration.name List.mem_cons_self)
        simp only [Section.ofNode, Section.ofFunction, hplace]
      | _ => rfl
    rw [sections, sections, hnode, ih _ _ h.2]

/-- Whatever is read off the notes of a function without its mentions does not depend on the other
functions. -/
theorem filterMap_ownNotes {β : Type} {f : PlacedNote → Option β}
    (hf : ∀ bound name, f ⟨bound, .mention name⟩ = none) (declaration : FunctionDecl Node)
    (overload other : Option Overload) :
    (PlacedNote.place [] (declaration.ownNotes overload)).filterMap f =
      (PlacedNote.place [] (declaration.ownNotes other)).filterMap f := by
  have hclosing : ∀ closes : Bool, (PlacedNote.place []
      (if closes then [.mention "overloadingFn"] else [])).filterMap f = [] := by
    intro closes
    cases closes <;> simp [PlacedNote.place, hf]
  simp only [FunctionDecl.ownNotes, PlacedNote.place, List.map_append, List.filterMap_append] at *
  rw [hclosing, hclosing]

theorem filterMap_sections {β : Type} {f : PlacedNote → Option β}
    (hf : ∀ bound name, f ⟨bound, .mention name⟩ = none) (all others earlier : List String)
    (previous : Option Node) (nodes : List Node) :
    ((sections options all earlier previous nodes).flatMap Section.notes).filterMap f =
      ((sections options others earlier previous nodes).flatMap Section.notes).filterMap f := by
  induction nodes generalizing earlier previous with
  | nil => rfl
  | cons node nodes ih =>
    have hnode : (Section.ofNode options all earlier node).notes.filterMap f =
        (Section.ofNode options others earlier node).notes.filterMap f := by
      cases node with
      | function declaration =>
        simp only [Section.ofNode, Section.ofFunction, List.filterMap_append]
        rw [filterMap_ownNotes hf declaration (Overload.of? all earlier declaration.name)
          (Overload.of? others earlier declaration.name)]
      | _ => rfl
    simp only [sections, List.flatMap_cons, List.filterMap_append, hnode, ih]

end Sections

/-! ## Documents -/

section Documents

variable (options : Options) (front back : List Node)

/-- What is read off the notes of a program, its mentions apart, starts with what is read off the
notes of its first statements. -/
theorem prefix_filterMap_notes {β : Type} {f : PlacedNote → Option β}
    (hf : ∀ bound name, f ⟨bound, .mention name⟩ = none) :
    ((Program.mk front).notes options).filterMap f <+:
      ((Program.mk (front ++ back)).notes options).filterMap f := by
  have hfront := filterMap_sections options hf (functionNames front) (functionNames (front ++ back))
    [] none front
  simp only [Program.notes, Program.sections]
  rw [hfront, sections_append, List.flatMap_append, List.filterMap_append]
  exact List.prefix_append _ _

/-- As long as no function name recurs, the sections of the first statements are all kept. -/
theorem prefix_sections (h : ∀ name ∈ functionNames back, name ∉ functionNames front) :
    (Program.mk front).sections options <+: (Program.mk (front ++ back)).sections options := by
  have hcount : ∀ name ∈ functionNames front,
      (functionNames front).count name = (functionNames (front ++ back)).count name := by
    intro name hname
    have hback : name ∉ functionNames back := fun hmem => h name hmem hname
    rw [functionNames_append, List.count_append, List.count_eq_zero.mpr hback, Nat.add_zero]
  rw [Program.sections, Program.sections, sections_append, sections_congr options [] none hcount]
  exact List.prefix_append _ _

end Documents

/-- What becomes of the first statements of a program when others follow. Their globals and their
diagnostics stay in front; and if no function that follows has the name of one of theirs, so do
their imports and their text. -/
theorem document_continues (options : Options) (front back : List Node) :
    let start := (Program.mk front).document options
    let whole := (Program.mk (front ++ back)).document options
    start.scope.globals <+: whole.scope.globals ∧
      start.diagnostics <+: whole.diagnostics ∧
      ((∀ name ∈ functionNames back, name ∉ functionNames front) →
        start.scope.imports <+: whole.scope.imports ∧
          ∃ rest, whole.body = start.body ++ rest) := by
  intro start whole
  refine ⟨?_, prefix_filterMap_notes options front back fun _ _ => rfl, ?_⟩
  · obtain ⟨rest, hrest⟩ : declaredNames ((Program.mk front).notes options) <+:
        declaredNames ((Program.mk (front ++ back)).notes options) :=
      prefix_filterMap_notes options front back fun _ _ => rfl
    have hstart : start.scope.globals =
        (declaredNames ((Program.mk front).notes options)).foldl Scope.addName [] :=
      Scope.globals_recordAll .empty _
    have hwhole : whole.scope.globals =
        (declaredNames ((Program.mk (front ++ back)).notes options)).foldl Scope.addName [] :=
      Scope.globals_recordAll .empty _
    rw [hstart, hwhole, ← hrest, List.foldl_append]
    exact Scope.prefix_foldl_addName _ rest
  · intro hnames
    obtain ⟨rest, hrest⟩ := prefix_sections options front back hnames
    constructor
    · have hscope : whole.scope = start.scope.recordAll (rest.flatMap Section.notes) := by
        simp only [whole, start, Program.document, ← hrest, List.flatMap_append,
          Scope.recordAll_append]
      rw [hscope]
      exact Scope.imports_prefix_recordAll _ _
    · refine ⟨String.join (rest.map Section.text), ?_⟩
      simp only [whole, start, Program.document, ← hrest, List.map_append]
      rw [String.join_append, String.append_assoc]

/-- An unknown statement and a function that follow a uniform and another function. -/
theorem document_continues_with_function :
    let front : List Node := [.uniform "time" "float",
      .function ⟨"wave", "float", [], [.return (some (.call "sin" [.accessor "time"]))], true⟩]
    let back : List Node := [.unknown,
      .function ⟨"tone", "float", [], [.return (some (.call "cos" [.accessor "time"]))], true⟩]
    let start := (Program.mk front).document .default
    let whole := (Program.mk (front ++ back)).document .default
    (∀ name ∈ functionNames back, name ∉ functionNames front) ∧
      start.scope.imports <+: whole.scope.imports ∧ ∃ rest, whole.body = start.body ++ rest := by
  intro front back start whole
  have hnames : ∀ name ∈ functionNames back, name ∉ functionNames front := by decide
  exact ⟨hnames, (document_continues .default front back).2.2 hnames⟩

end ShaderScript
