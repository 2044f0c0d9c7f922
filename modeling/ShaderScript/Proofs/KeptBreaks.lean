import ShaderScript.Emit.Document
import ShaderScript.Proofs.BreakEmission
import ShaderScript.Proofs.Traces

/-!
# Kept breaks

A break is written each time its body is, unless a switch is the innermost loop or switch around it.
Then it is left out wherever it stands in the case: at its end, before other statements, or inside a
conditional.
-/

namespace ShaderScript

open Breaks Fragment

section Programs

variable (rule : Place → Bool) (options : Options) (all earlier : List String)

/-- How often `Break` is mentioned in a top-level statement. -/
def Section.breakCount (part : Section) : Nat :=
  (part.notes.map PlacedNote.note).count (.mention "Break")

/-- No break in the top-level statement that the rule chooses leaves a switch. -/
def SparesRoot : Node → Prop
  | .function declaration => Block.Spares ⟨none, false, declaration.body⟩ rule
  | node => Spares rule none node

theorem spellRoot_cases (node : Node) :
    (∃ declaration, node = .function declaration ∧ spellRoot rule node =
        .function { declaration with body := spellBody rule none false declaration.body }) ∨
      node.kind ≠ .function ∧
        (spellRoot rule node = spell rule none node ∨
          node = .break ∧ spellRoot rule node = call) := by
  cases node with
  | function declaration => exact .inl ⟨declaration, rfl, rfl⟩
  | «break» =>
    refine .inr ⟨by decide, ?_⟩
    by_cases hrule : rule ⟨none, false⟩
    · exact .inr ⟨rfl, by simp [spellRoot, spellStatement, Node.kind, hrule]⟩
    · exact .inl (by simp [spellRoot, spellStatement, hrule])
  | _ =>
    exact .inr ⟨by simp [Node.kind], .inl (by simp [spellRoot, spellStatement, Node.kind])⟩

theorem spacing_spellRoot (node : Node) : (spellRoot rule node).spacing = node.spacing := by
  obtain ⟨declaration, rfl, hspell⟩ | ⟨-, hspell | ⟨rfl, hspell⟩⟩ := spellRoot_cases rule node
  · rw [hspell]
    rfl
  · rw [hspell, spacing_spell]
  · rw [hspell]
    rfl

theorem kind_spellRoot {node : Node} (h : node.kind ≠ .function) :
    (spellRoot rule node).kind ≠ .function := by
  obtain ⟨declaration, rfl, -⟩ | ⟨-, hspell | ⟨rfl, hspell⟩⟩ := spellRoot_cases rule node
  · exact absurd rfl h
  · rwa [hspell, kind_spell]
  · rw [hspell]
    decide

theorem functionNames_of_kind {node : Node} (h : node.kind ≠ .function) :
    functionNames [node] = [] := by
  cases node <;> first | rfl | exact absurd rfl h

theorem functionNames_map_spellRoot (nodes : List Node) :
    functionNames (nodes.map (spellRoot rule)) = functionNames nodes := by
  induction nodes with
  | nil => rfl
  | cons node nodes ih =>
    have hnode : functionNames [spellRoot rule node] = functionNames [node] := by
      obtain ⟨declaration, rfl, hspell⟩ | ⟨hkind, -⟩ := spellRoot_cases rule node
      · rw [hspell]
        rfl
      · rw [functionNames_of_kind hkind, functionNames_of_kind (kind_spellRoot rule hkind)]
    rw [List.map_cons, functionNames_cons, hnode, ih, ← functionNames_cons]

/-- The copies of the parameters stand before the statements, as they were. -/
theorem grows_function (declaration : FunctionDecl Node) :
    Grows Section.breakCount (Section.ofFunction options all earlier declaration)
      (Section.ofFunction options all earlier
        { declaration with body := spellBody rule none false declaration.body })
      (Block.Spares ⟨none, false, declaration.body⟩ rule) := by
  let context : Context := ⟨options.reference, options.depth + 1, false, false⟩
  let copies : List Node := (declaration.params.filter Parameter.isCopied).map Parameter.copy
  have hbody := grows_pieces context ⟨none, false, declaration.body⟩ rfl
    fun statement _ => (tracks statement : Tracks rule statement)
  have hstatements := hbody.append (copies.map (piece? context))
  rw [← List.map_append, ← List.map_append] at hstatements
  let overload := Overload.of? all earlier declaration.name
  have hsection : Grows Section.breakCount _ _ _ := hstatements.emitBody.map
    (fun body => ⟨declaration.text options overload body.text,
      PlacedNote.place declaration.boundNames body.notes ++
        PlacedNote.place [] (declaration.ownNotes overload)⟩)
    ((declaration.ownNotes overload).count (.mention "Break"))
    (by simp [Section.breakCount, note_place, breakCount])
  have hemit : ∀ function : FunctionDecl Node,
      function.emitBody options = emitBody context function.statements := by
    intro function
    rw [FunctionDecl.emitBody, emitAll_eq_map, ofFragments_eq_emitBody]
  simp only [Section.ofFunction, hemit]
  exact hsection

theorem ofNode_of_kind {node : Node} (h : node.kind ≠ .function) :
    Section.ofNode options all earlier node =
      ⟨(emit (Section.context options) node).text ++ ";\n",
        PlacedNote.place [] (emit (Section.context options) node).notes⟩ := by
  cases node <;> first | rfl | exact absurd rfl h

theorem grows_section (node : Node) :
    Grows Section.breakCount (Section.ofNode options all earlier node)
      (Section.ofNode options all earlier (spellRoot rule node)) (SparesRoot rule node) := by
  obtain ⟨declaration, rfl, hspell⟩ | ⟨hkind, hspell⟩ := spellRoot_cases rule node
  · rw [hspell]
    exact grows_function rule options all earlier declaration
  · have hspares : Spares rule none node ↔ SparesRoot rule node := by
      cases node <;> first | exact Iff.rfl | exact absurd rfl hkind
    have hfragment : Grows breakCount (emit (Section.context options) node)
        (emit (Section.context options) (spellRoot rule node)) (Spares rule none node) := by
      obtain hspell | ⟨rfl, hspell⟩ := hspell
      · rw [hspell]
        exact tracks node rfl
      · rw [hspell, emit_call]
        exact (Grows.refl _ _).congr (iff_of_true trivial (spares_leaf rfl rfl))
    have hsection : Grows Section.breakCount _ _ _ := hfragment.map
      (fun fragment => ⟨fragment.text ++ ";\n", PlacedNote.place [] fragment.notes⟩) 0
      (by simp [Section.breakCount, note_place, breakCount])
    rw [ofNode_of_kind options all earlier hkind,
      ofNode_of_kind options all earlier (kind_spellRoot rule hkind)]
    exact hsection.congr hspares

theorem grows_sections (previous before : Option Node) (nodes : List Node)
    (hprevious : previous.map Node.spacing = before.map Node.spacing) :
    Grows (total Section.breakCount)
      (sections options all earlier previous nodes)
      (sections options all earlier before (nodes.map (spellRoot rule)))
      (∀ node ∈ nodes, SparesRoot rule node) := by
  induction nodes generalizing earlier previous before with
  | nil => exact (Grows.refl _ _).congr (by simp)
  | cons node nodes ih =>
    have hspacing := (spacing_spellRoot rule node).symm
    have hnext : (some node).map Node.spacing = (some (spellRoot rule node)).map Node.spacing :=
      congrArg some hspacing
    have hnames : functionNames [spellRoot rule node] = functionNames [node] :=
      functionNames_map_spellRoot rule [node]
    have hhead : Grows Section.breakCount _ _ _ :=
      (grows_section rule options all earlier node).map (fun part =>
        ({ part with text := Body.gap previous node ++ Script.tabs options.depth ++ part.text } :
          Section)) 0 fun _ => rfl
    have hrest := ih (earlier ++ functionNames [node]) _ _ hnext
    rw [sections, List.map_cons, sections, hnames, ← Body.gap_congr hprevious hspacing]
    exact (hhead.cons hrest).congr List.forall_mem_cons.symm

theorem forall_sparesRoot_iff (program : Program) :
    (∀ node ∈ program.body, SparesRoot rule node) ↔
      ∀ place, program.HasBreak place → rule place → place.enclosure ≠ some .switch := by
  have hstatements : Block.Spares ⟨none, false, program.body⟩ rule ↔
      ∀ node ∈ program.body, Spares rule none node := by
    rw [Block.spares_iff]
    conv_rhs => rw [← map_snd_marked false program.body, List.forall_mem_map]
    exact forall₂_congr fun entry _ => by simp
  have hblocks : (∀ place, program.HasBreak place → rule place → place.enclosure ≠ some .switch) ↔
      ∀ block ∈ program.blocks, block.Spares rule := by
    simp only [Program.HasBreak, Block.Spares]
    exact ⟨fun h block hblock place hp => h place ⟨block, hblock, hp⟩,
      fun h place ⟨block, hblock, hp⟩ => h block hblock place hp⟩
  rw [hblocks, Program.blocks, List.forall_mem_cons, hstatements, List.forall_mem_filterMap,
    ← forall₂_and]
  refine forall₂_congr fun node _ => ?_
  cases node with
  | function declaration =>
    have hfunction : Spares rule none (.function declaration) := spares_leaf rfl rfl
    simp [SparesRoot, hfunction]
  | _ => simp [SparesRoot]

end Programs

/-- A call of `Break` is written as `Break()`, and no body leaves it out. A program in which breaks
are such calls has the same sections exactly if none of them leaves a switch: a break whose
innermost loop or switch is a switch is never written, whether it ends its case or not, and any other
one always is. -/
theorem breaks_written_iff (rule : Place → Bool) (program : Program) (options : Options) :
    (∀ context inCase, emit context call = ⟨"Break()", [.mention "Break"]⟩ ∧
        Body.isDropped inCase call = false) ∧
      ((program.spellBreaks rule).sections options = program.sections options ↔
        ∀ place, program.HasBreak place → rule place → place.enclosure ≠ some .switch) := by
  have hgrows := grows_sections rule options (functionNames program.body) [] none none program.body
    rfl
  refine ⟨fun context inCase => ⟨rfl, rfl⟩, ?_⟩
  rw [← forall_sparesRoot_iff, ← hgrows.eq_iff, Program.sections, Program.sections,
    Program.spellBreaks, functionNames_map_spellRoot]

/-- A break in a conditional, with a statement behind it, is left out like the one that ends the
case. -/
theorem conditional_break_left_out :
    let program : Program :=
      ⟨[.switch (.accessor "m")
        [⟨some (.number "0" .float),
          [.conditional (.accessor "c") [.break] [], .call "foo" [], .break]⟩]]⟩
    program.HasBreak ⟨some .switch, false⟩ ∧
      (program.document .default).body =
        "\nSwitch( m )\n\t.Case( 0, () => \x7b\n\n\t\tIf( c, () => \x7b" ++
          "\n\n\n\n\t\t\x7d );\n\n\t\tfoo();\n\n\t\x7d );\n" ∧
      ((program.spellBreaks fun place => !place.closing).document .default).body =
        "\nSwitch( m )\n\t.Case( 0, () => \x7b\n\n\t\tIf( c, () => \x7b" ++
          "\n\n\t\t\tBreak();\n\n\t\t\x7d );\n\n\t\tfoo();\n\n\t\x7d );\n" := by
  refine ⟨⟨_, List.mem_cons_self, .inr ⟨_, List.mem_cons_self, ?_⟩⟩, ?_, ?_⟩
  · have hblock : (⟨some .switch, false, [.break]⟩ : Block) ∈
        blocks (some .switch) (.conditional (.accessor "c") [.break] []) := List.mem_cons_self
    exact .nested List.mem_cons_self List.mem_cons_self (.statement hblock List.mem_cons_self)
  · decide +kernel
  · decide +kernel

end ShaderScript
