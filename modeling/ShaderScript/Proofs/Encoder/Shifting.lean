import ShaderScript.Proofs.Encoder.Agreement
import ShaderScript.Proofs.Indentation
import ShaderScript.Proofs.LiteralHeads

/-!
# One level deeper

A node that is emitted one level deeper has the same text, with a tab more on every line that is not
empty, except the first: the text is shifted. Its notes are the same as well, except that the labels
of cases that no body follows are reported as they are emitted, and so are shifted with the text.
What a form of text decides, it decides by the first line of a part, which shifting leaves alone.
-/

namespace ShaderScript

open Script

/-! ## Shifted text -/

/-- A tab after every line break that is followed by another character than a line break. -/
def shiftChars : List Char → List Char
  | [] => []
  | c :: rest =>
    if c = '\n' ∧ rest.head?.any (· != '\n') then '\n' :: '\t' :: shiftChars rest
    else c :: shiftChars rest

/-- The text with a tab more on every line that is not empty, except the first. -/
def shiftLines (text : String) : String :=
  String.ofList (shiftChars text.toList)

theorem indentFrom_fresh (chars : List Char) :
    indentFrom true chars =
      if chars.head?.any (· != '\n') then '\t' :: indentFrom false chars
      else indentFrom false chars := by
  cases chars with
  | nil => rfl
  | cons c rest => by_cases hc : c = '\n' <;> simp [indentFrom, hc]

/-- To shift is to indent from within a line. -/
theorem shiftChars_eq_indentFrom (chars : List Char) :
    shiftChars chars = indentFrom false chars := by
  induction chars with
  | nil => rfl
  | cons c rest ih =>
    by_cases hc : c = '\n'
    · rw [shiftChars, indentFrom, if_pos hc, indentFrom_fresh, ih]
      split_ifs <;> simp_all
    · simp [shiftChars, indentFrom, hc, ih]

theorem toList_shiftLines (text : String) :
    (shiftLines text).toList = indentFrom false text.toList := by
  rw [shiftLines, String.toList_ofList, shiftChars_eq_indentFrom]

theorem alike_indentFrom (count : Nat) (chars : List Char) :
    Alike count (indentFrom false chars) chars := by
  induction chars generalizing count with
  | nil => exact .nil count
  | cons c rest ih =>
    by_cases hc : c = '\n'
    · rw [indentFrom, if_pos hc, hc]
      exact .newline count _ _
    · rw [indentFrom, if_neg hc, if_neg Bool.false_ne_true]
      cases count with
      | zero => exact .zero _ _
      | succ count => exact .cons c (ih count)

/-- The first line decides whether a text starts like a literal. -/
@[simp]
theorem startsLiteral_shiftLines (text : String) :
    startsLiteral (shiftLines text) = startsLiteral text := by
  refine Alike.startsLiteral_eq ?_
  rw [toList_shiftLines]
  exact alike_indentFrom 5 text.toList

/-! ## Shifted fragments -/

/-- Conditions are reported as they are emitted. -/
def Diagnostic.shifted : Diagnostic → Diagnostic
  | .unknownNode => .unknownNode
  | .nestedFunction name => .nestedFunction name
  | .unterminatedCases conditions => .unterminatedCases (conditions.map shiftLines)

@[simp]
def Note.shifted : Note → Note
  | .mention name => .mention name
  | .require name => .require name
  | .declare name => .declare name
  | .report diagnostic => .report diagnostic.shifted

/-- The fragment one level deeper. -/
def Fragment.shifted (fragment : Fragment) : Fragment :=
  ⟨shiftLines fragment.text, fragment.notes.map Note.shifted⟩

namespace Fragment

@[simp]
theorem text_shifted (fragment : Fragment) : fragment.shifted.text = shiftLines fragment.text :=
  rfl

@[simp]
theorem notes_shifted (fragment : Fragment) :
    fragment.shifted.notes = fragment.notes.map Note.shifted :=
  rfl

@[simp]
theorem texts_shifted (fragments : List Fragment) :
    texts (fragments.map shifted) = (texts fragments).map shiftLines := by
  simp [texts]

@[simp]
theorem allNotes_shifted (fragments : List Fragment) :
    allNotes (fragments.map shifted) = (allNotes fragments).map Note.shifted := by
  simp [allNotes, List.map_flatMap, List.flatMap_map]

end Fragment

theorem notes_number_shifted (value : String) (kind : NumberKind) :
    (Form.number value kind).notes.map Note.shifted = (Form.number value kind).notes := by
  cases kind <;> rfl

theorem notes_uniform_shifted (reference : Bool) (name type : String) :
    (Form.uniform reference name type).notes.map Note.shifted =
      (Form.uniform reference name type).notes := by
  unfold Form.uniform Form.uniformValue
  cases reference <;> cases Form.resource? type <;> rfl

theorem notes_binary_shifted (op : BinaryOp) (left right : Fragment) :
    (Form.binary op left.shifted right.shifted).notes =
      (Form.binary op left right).notes.map Note.shifted := by
  simp only [Form.binary, Fragment.text_shifted, startsLiteral_shiftLines]
  split_ifs <;> simp

theorem notes_unary_shifted (op : UnaryOp) (trailing initializing : Bool) (operand : Fragment) :
    (Form.unary op trailing initializing operand.shifted).notes =
      (Form.unary op trailing initializing operand).notes.map Note.shifted := by
  unfold Form.unary
  split
  · rfl
  · rw [Fragment.text_shifted, startsLiteral_shiftLines]
    split_ifs <;> simp

/-- Whether a call is a chain depends on its name and on how many arguments it has. -/
theorem notes_call_shifted (name : String) (args : List Fragment) :
    (Form.call name (args.map Fragment.shifted)).notes =
      (Form.call name args).notes.map Note.shifted := by
  have hchain : (sampleChain? name ((Fragment.texts args).map shiftLines)).isSome =
      (sampleChain? name (Fragment.texts args)).isSome := by
    rw [isSome_sampleChain?_eq_accepts, isSome_sampleChain?_eq_accepts, List.length_map]
  rw [Form.call, Form.call, Fragment.texts_shifted]
  cases hshifted : sampleChain? name ((Fragment.texts args).map shiftLines) <;>
    cases hplain : sampleChain? name (Fragment.texts args) <;>
    simp [hshifted, hplain] at hchain ⊢

/-! ## Parts of a node -/

/-- Emitted one level deeper, the node is shifted. -/
def Node.Shifts (node : Node) : Prop :=
  ∀ context : Context, emit context.deeper node = (emit context node).shifted

section Parts

variable {nodes : List Node}

theorem allNotes_map_shifted {α : Type} {items : List α} {plain deeper : α → Fragment}
    (h : ∀ item ∈ items, (deeper item).notes = (plain item).notes.map Note.shifted) :
    Fragment.allNotes (items.map deeper) =
      (Fragment.allNotes (items.map plain)).map Note.shifted := by
  simp only [Fragment.allNotes, List.flatMap_map, List.map_flatMap]
  exact List.flatMap_congr h

theorem map_emit_deeper (h : ∀ node ∈ nodes, node.Shifts) (context : Context) :
    nodes.map (emit context.deeper) = (nodes.map (emit context)).map Fragment.shifted := by
  rw [List.map_map]
  exact List.map_congr_left fun node hn => h node hn context

theorem notes_optional_deeper {part : Option Node} (h : ∀ node ∈ part, node.Shifts)
    (context : Context) :
    ((part.map (emit context.deeper)).map Fragment.notes).getD [] =
      (((part.map (emit context)).map Fragment.notes).getD []).map Note.shifted := by
  cases part with
  | none => rfl
  | some node => simp [h node rfl context]

theorem notes_emitBody_deeper (h : ∀ node ∈ nodes, node.Shifts) (context : Context) :
    (emitBody context.deeper nodes).notes = (emitBody context nodes).notes.map Note.shifted := by
  rw [notes_emitBody, notes_emitBody, List.map_flatMap]
  refine List.flatMap_congr fun node hn => ?_
  rw [h node (List.mem_of_mem_filter hn)]
  rfl

theorem notes_emitDeclarator_deeper {declarator : Declarator Node}
    (h : ∀ value ∈ declarator.value, value.Shifts) (context : Context) :
    (emitDeclarator context.deeper declarator).notes =
      (emitDeclarator context declarator).notes.map Note.shifted := by
  obtain ⟨name, type, value, mutable⟩ := declarator
  cases value with
  | none => rfl
  | some value =>
    have hvalue := h value rfl context
    simp only [emitDeclarator, emitOptional, Form.binding, hvalue]
    split_ifs <;> rfl

theorem notes_emitAlternate_deeper {branch : Branch Node} (h : ∀ part ∈ branch.parts, part.Shifts)
    (depth further : Nat) (context : Context) :
    (Form.alternate further (emitAlternate context.deeper branch)).notes =
      (Form.alternate depth (emitAlternate context branch)).notes.map Note.shifted := by
  obtain ⟨condition, body⟩ := branch
  have hbody := notes_emitBody_deeper (fun node hn => h node (List.mem_append_right _ hn))
    context.deeper
  cases condition with
  | none => simpa [emitAlternate, Form.alternate] using hbody
  | some condition =>
    have hcondition := h condition List.mem_cons_self context
    simp [emitAlternate, Form.alternate, hbody, hcondition]

theorem notes_emitArm_deeper {arm : Arm Node (List Node)}
    (hlabels : ∀ label ∈ arm.labels, label.Shifts)
    (hbody : ∀ nodes ∈ arm.body?, ∀ node ∈ nodes, node.Shifts) (depth further : Nat)
    (context : Context) :
    (Form.arm further (arm.map (emit context.deeper) (emitBody context.deeper.deeper))).notes =
      (Form.arm depth (arm.map (emit context) (emitBody context.deeper))).notes.map
        Note.shifted := by
  have hnotes : ((arm.body?.map (emitBody context.deeper.deeper)).map Fragment.notes).getD [] =
      (((arm.body?.map (emitBody context.deeper)).map Fragment.notes).getD []).map
        Note.shifted := by
    cases hnodes : arm.body? with
    | none => rfl
    | some nodes => exact notes_emitBody_deeper (hbody nodes hnodes) context.deeper
  cases arm with
  | cases labels body closed =>
    have hmap := map_emit_deeper hlabels context
    simp only [Arm.labels, Arm.body?] at hmap hnotes
    simp only [Arm.map, Form.arm, hmap, hnotes, Fragment.texts_shifted, Fragment.allNotes_shifted,
      List.map_append]
    cases closed <;> rfl
  | default body => simpa [Arm.map, Form.arm, Arm.body?] using hnotes

end Parts

/-! ## Nodes -/

theorem notes_loop_deeper {initial condition afterthought : Option Node} {body : List Node}
    (h : ∀ part ∈ (Node.loop initial condition afterthought body).parts,
      part.Shifts ∧ ∀ inner ∈ part.parts, inner.Shifts) (context : Context) :
    (emit context.deeper (.loop initial condition afterthought body)).notes =
      (emit context (.loop initial condition afterthought body)).notes.map Note.shifted := by
  have hbody : ∀ node ∈ body, node.Shifts := fun node hn =>
    (h node (List.mem_append_right _ hn)).1
  cases hcount : Counting.ofLoop? initial condition afterthought with
  | none =>
    have hoptional (part : Option Node)
        (hp : ∀ node ∈ part, node ∈ (Node.loop initial condition afterthought body).parts) :=
      notes_optional_deeper (fun node hn => (h node (hp node hn)).1) context
    have hinitial := hoptional initial (by simp +contextual [Node.parts])
    have hcondition := hoptional condition (by simp +contextual [Node.parts])
    have hafterthought := hoptional afterthought (by simp +contextual [Node.parts])
    have hcontent := notes_emitBody_deeper hbody context.outsideCase.deeper.deeper
    rw [emit_general hcount, emit_general hcount]
    simp only [Form.generalLoop, List.map_append, ← hinitial, ← hcondition, ← hafterthought,
      ← hcontent]
    rfl
  | some counting =>
    -- What is emitted of the header are parts of its parts.
    obtain ⟨mutable, last, rfl, rfl, -, rfl, hsteps⟩ := Counting.shape_of_ofLoop? hcount
    have hstart := (h (.bindings [⟨counting.name, counting.type, some counting.start, mutable⟩])
      (by simp [Node.parts])).2 counting.start (by simp [Node.parts]) context
    have hlimit := (h (.operator counting.comparison (.accessor counting.name) counting.limit)
      (by simp [Node.parts])).2 counting.limit (by simp [Node.parts]) context
    have hlast := h last (by simp [Node.parts])
    have hoperands : ∀ operand ∈ counting.update.operand?, operand.Shifts := by
      intro operand ho
      obtain rfl | hpart := hsteps.operand ho
      · exact hlast.1
      · exact hlast.2 operand hpart
    have hupdate := notes_optional_deeper hoperands context
    have hcontent := notes_emitBody_deeper hbody context.outsideCase.deeper
    rw [emit_counting hcount, emit_counting hcount]
    simp only [Form.countingLoop, Counting.map, Update.operand?_map, List.map_append, hstart,
      hlimit, ← hupdate, ← hcontent]
    rfl

theorem notes_emit_deeper {node : Node}
    (h : ∀ part ∈ node.parts, part.Shifts ∧ ∀ inner ∈ part.parts, inner.Shifts)
    (context : Context) :
    (emit context.deeper node).notes = (emit context node).notes.map Note.shifted := by
  have hparts : ∀ part ∈ node.parts, part.Shifts := fun part hp => (h part hp).1
  cases node with
  | number value kind => simp only [emit, notes_number_shifted]
  | string | accessor | «break» | «continue» | discard | varying | function | unknown =>
    simp only [emit]
    rfl
  | uniform name type =>
    simp only [emit, notes_uniform_shifted]
    rfl
  | chain object elements =>
    have hobject := hparts object List.mem_cons_self context
    have hlinks : Fragment.allNotes (elements.map (emitElement context.deeper)) =
        (Fragment.allNotes (elements.map (emitElement context))).map Note.shifted := by
      refine allNotes_map_shifted fun element he => ?_
      rw [notes_emitElement, notes_emitElement,
        hparts _ (List.mem_cons_of_mem _ (List.mem_map_of_mem he)), Fragment.notes_shifted]
    simp only [emit, Form.chain, emitElements_eq_map, hobject, hlinks, Fragment.notes_shifted,
      List.map_append]
  | operator op left right =>
    simp only [emit]
    rw [hparts left (by simp [Node.parts]), hparts right (by simp [Node.parts]),
      notes_binary_shifted]
  | unary op operand trailing =>
    obtain ⟨value, kind, rfl, -⟩ | ⟨hother, hemit⟩ :=
      emit_unary_cases context op operand trailing
    · simp only [emit]
      rfl
    · obtain ⟨value, kind, rfl, -⟩ | ⟨-, hdeeper⟩ :=
        emit_unary_cases context.deeper op operand trailing
      · exact absurd rfl (hother value kind)
      · rw [hemit, hdeeper, hparts operand List.mem_cons_self]
        exact notes_unary_shifted op trailing context.initializing (emit context operand)
  | ternary condition left right =>
    simp only [emit]
    rw [hparts condition (by simp [Node.parts]), hparts left (by simp [Node.parts]),
      hparts right (by simp [Node.parts])]
    simp [Form.ternary]
  | call name args =>
    simp only [emit, emitAll_eq_map]
    have hargs : args.map (emit context.deeper) = (args.map (emit context)).map Fragment.shifted :=
      map_emit_deeper hparts context
    rw [hargs, notes_call_shifted]
  | «return» value =>
    cases value with
    | none =>
      simp only [emit, emitOptional]
      rfl
    | some value =>
      simp only [emit, emitOptional]
      rw [hparts value (by simp [Node.parts])]
      rfl
  | bindings declarators =>
    have hvalues : Fragment.allNotes
        (declarators.map (emitDeclarator context.deeper.initializers)) =
        (Fragment.allNotes (declarators.map (emitDeclarator context.initializers))).map
          Note.shifted := by
      refine allNotes_map_shifted fun declarator hd =>
        notes_emitDeclarator_deeper (fun value hv => ?_) context.initializers
      exact hparts value (List.mem_filterMap.mpr ⟨declarator, hd, hv⟩)
    simp only [emit, Form.bindings, emitDeclarators_eq_map, hvalues, List.map_append]
    simp
  | conditional condition body alternates =>
    have hcondition := hparts condition List.mem_cons_self context
    have hbody := notes_emitBody_deeper (fun node (hn : node ∈ body) => hparts node
      (List.mem_cons_of_mem _ (List.mem_append_left _ hn))) context.deeper
    have hlinks : Fragment.allNotes ((alternates.map (emitAlternate context.deeper)).map
        (Form.alternate context.deeper.depth)) =
        (Fragment.allNotes ((alternates.map (emitAlternate context)).map
          (Form.alternate context.depth))).map Note.shifted := by
      rw [List.map_map, List.map_map]
      refine allNotes_map_shifted fun branch hb =>
        notes_emitAlternate_deeper (fun part hp => ?_) _ _ _
      exact hparts part (List.mem_cons_of_mem _ (List.mem_append_right _
        (List.mem_flatMap.mpr ⟨branch, hb, hp⟩)))
    simp only [emit, Form.conditional, emitAll_eq_map, ofFragments_eq_emitBody,
      emitAlternates_eq_map, hcondition, hbody, hlinks, Fragment.notes_shifted, List.map_append]
    rfl
  | switch discriminant cases =>
    have hdiscriminant := hparts discriminant List.mem_cons_self context
    have harms : Fragment.allNotes ((Arm.group [] (emitCases context.deeper.cases cases)).map
        (Form.arm (context.deeper.depth + 1))) =
        (Fragment.allNotes ((Arm.group [] (emitCases context.cases cases)).map
          (Form.arm (context.depth + 1)))).map Note.shifted := by
      rw [group_emitCases, group_emitCases, List.map_map, List.map_map]
      refine allNotes_map_shifted fun arm ha =>
        notes_emitArm_deeper (fun label hl => ?_) (fun nodes hb node hn => ?_) _ _ context.cases
      · exact hparts label (List.mem_cons_of_mem _ (Branch.label_mem_parts ha hl))
      · exact hparts node (List.mem_cons_of_mem _ (Branch.body_mem_parts ha hb hn))
    simp only [emit, Form.switch, hdiscriminant, harms, Fragment.notes_shifted, List.map_append]
    rfl
  | loop => exact notes_loop_deeper h context

/-! ## Texts -/

section Texts

variable {U : String × String → Prop} {node : Node} {nodes : List Node}

theorem Context.seen_here (context : Context) : context.seen ⟨context.reference, 0⟩ = context := by
  simp [seen]

theorem Context.seen_deeper (context : Context) :
    context.seen ⟨context.reference, 0 + 1⟩ = context.deeper := by
  simp [seen, deeper, Nat.add_comm]

/-- The text of a node is a sheet, and one level more is one tab more at its margin. -/
theorem text_emit_deeper (h : node.Fits Unbroken U) (context : Context) :
    (emit context.deeper node).text = shiftLines (emit context node).text := by
  have hlaid := (h.draws context).text.indentFrom_eq context.reference 0 []
  rw [context.seen_here, context.seen_deeper] at hlaid
  rw [← String.toList_inj, toList_shiftLines]
  simpa [indentFrom] using hlaid.symm

theorem Node.Fits.shifts (h : node.Fits Unbroken U) : node.Shifts := by
  induction node using Node.parts_induction₂ with
  | step node ih =>
  intro context
  have hnotes := notes_emit_deeper
    (fun part hp => ⟨(ih part hp).1 (h.part hp),
      fun inner hi => (ih part hp).2 inner hi ((h.part hp).part hi)⟩) context
  exact congrArg₂ Fragment.mk (text_emit_deeper h context) hnotes

theorem fits_of_unbroken (h : ∀ text ∈ node.strings, Unbroken text) :
    node.Fits Unbroken fun _ => True :=
  ⟨h, fun _ _ _ => trivial⟩

theorem Filled.indentFrom_eq {uniforms : List (String × String)} {content : View → String}
    (h : Filled Unbroken uniforms content) (reference : Bool) (margin : Nat) :
    indentFrom true (content ⟨reference, margin⟩).toList =
      (content ⟨reference, margin + 1⟩).toList := by
  cases h with
  | empty h => simp [h, indentFrom]
  | lines h => simpa [indentFrom] using h.indentFrom_eq reference margin []

/-- A body that is not empty starts with its indentation. -/
theorem head?_emitBody (context : Context) (nodes : List Node) :
    (emitBody context.deeper nodes).text = "" ∨
      ∃ rest, (emitBody context.deeper nodes).text.toList = '\t' :: rest := by
  rw [emitBody, Body.ofFragments, Body.assemble_map]
  cases Body.kept context.deeper.inCase nodes with
  | nil => exact .inl rfl
  | cons node nodes =>
    right
    simp [Body.lines, Body.gap, intercalate_cons, tabs, Context.deeper, List.replicate_succ]

theorem text_emitBody_deeper (h : ∀ node ∈ nodes, node.Fits Unbroken U) (context : Context) :
    (emitBody context.deeper.deeper nodes).text =
      if (emitBody context.deeper nodes).text = "" then ""
      else "\t" ++ shiftLines (emitBody context.deeper nodes).text := by
  have hfilled := (drawn_emitBody (fun node hn => (h node hn).draws) context).text.indentFrom_eq
    context.deeper.reference 0
  rw [context.deeper.seen_here, context.deeper.seen_deeper] at hfilled
  rw [← String.toList_inj, ← hfilled]
  obtain hempty | ⟨rest, hrest⟩ := head?_emitBody context nodes
  · simp [hempty, indentFrom]
  · have hne : (emitBody context.deeper nodes).text ≠ "" := by
      rintro hempty
      simp [hempty] at hrest
    rw [if_neg hne, String.toList_append, toList_shiftLines, indentFrom_fresh, hrest]
    rfl

end Texts

/-! ## States -/

/-- Reports do not change a scope, so it does not matter what they say. -/
theorem Scope.recordAll_shifted (scope : Scope) (bound : List String) (notes : List Note) :
    scope.recordAll (PlacedNote.place bound (notes.map Note.shifted)) =
      scope.recordAll (PlacedNote.place bound notes) := by
  induction notes generalizing scope with
  | nil => rfl
  | cons note notes ih =>
    have hnote : scope.record ⟨bound, note.shifted⟩ = scope.record ⟨bound, note⟩ := by
      cases note <;> rfl
    have hrest := ih (scope.record ⟨bound, note⟩)
    simp only [PlacedNote.place, List.map_cons, Scope.recordAll, List.foldl_cons, hnote] at hrest ⊢
    exact hrest

theorem diagnostics_shifted (bound : List String) (notes : List Note) :
    diagnostics (PlacedNote.place bound (notes.map Note.shifted)) =
      (diagnostics (PlacedNote.place bound notes)).map Diagnostic.shifted := by
  simp only [diagnostics, PlacedNote.place, List.map_map, List.filterMap_map, List.map_filterMap]
  refine List.filterMap_congr fun note _ => ?_
  cases note <;> rfl

namespace Encoder

/-- The same state one level deeper. -/
def deeper (encoder : Encoder) : Encoder :=
  { encoder with depth := encoder.depth + 1 }

theorem context_deeper (encoder : Encoder) : encoder.deeper.context = encoder.context.deeper :=
  rfl

/-- What is found one level deeper is found here, but for the text of conditions. -/
theorem take_deeper (encoder : Encoder) (notes : List Note) :
    encoder.deeper.take (notes.map Note.shifted) =
      { (encoder.take notes).deeper with
        diagnostics := encoder.diagnostics ++
          (ShaderScript.diagnostics (PlacedNote.place encoder.bound notes)).map
            Diagnostic.shifted } := by
  simp only [take, deeper, Scope.recordAll_shifted, diagnostics_shifted]

end Encoder

/-- **One level deeper.** From two states that differ in the depth only, by one, the encoder gives
the same text for a node without line breaks in its strings, shifted by a tab; and the body of such
statements is empty in both, or starts with a tab more and is shifted from there on. It ends in
states that differ in the depth, and in the conditions that it has reported, which are shifted. -/
theorem deeper_emission_shifts (encoder : Encoder) :
    (∀ node : Node, (∀ text ∈ node.strings, Unbroken text) →
      let fragment := emit encoder.context node
      let later := encoder.take fragment.notes
      ∃ found, later.diagnostics = encoder.diagnostics ++ found ∧
        encode node encoder = some (fragment.text, later) ∧
        encode node encoder.deeper = some (shiftLines fragment.text,
          { later.deeper with
            diagnostics := encoder.diagnostics ++ found.map Diagnostic.shifted })) ∧
    ∀ nodes : List Node, (∀ node ∈ nodes, ∀ text ∈ node.strings, Unbroken text) →
      let fragment := emitBody encoder.context.deeper nodes
      let later := encoder.take fragment.notes
      ∃ found, later.diagnostics = encoder.diagnostics ++ found ∧
        encodeBody nodes encoder = some (fragment.text, later) ∧
        encodeBody nodes encoder.deeper =
          some (if fragment.text = "" then "" else "\t" ++ shiftLines fragment.text,
            { later.deeper with
              diagnostics := encoder.diagnostics ++ found.map Diagnostic.shifted }) := by
  constructor
  · intro node h fragment later
    refine ⟨_, rfl, node.agrees encoder.context encoder rfl, ?_⟩
    have hdeeper := node.agrees encoder.context.deeper encoder.deeper encoder.context_deeper
    rw [hdeeper, (fits_of_unbroken h).shifts encoder.context]
    simp only [Fragment.text_shifted, Fragment.notes_shifted, Encoder.take_deeper]
    rfl
  · intro nodes h fragment later
    have hfits : ∀ node ∈ nodes, node.Fits Unbroken fun _ => True :=
      fun node hn => fits_of_unbroken (h node hn)
    refine ⟨_, rfl, gives_body encoder.context (fun node _ => node.agrees) encoder rfl, ?_⟩
    have hdeeper := gives_body encoder.context.deeper (fun node (_ : node ∈ nodes) => node.agrees)
      encoder.deeper encoder.context_deeper
    have hnotes := notes_emitBody_deeper (fun node hn => (hfits node hn).shifts)
      encoder.context.deeper
    rw [text_emitBody_deeper hfits, hnotes, Encoder.take_deeper] at hdeeper
    exact hdeeper

/-- A case with a label of several lines and no body, and a body with an empty line in it. -/
theorem deeper_emission_shifts_case :
    let node : Node :=
      .switch (.accessor "m") [⟨some (.conditional (.accessor "c") [.discard] []), []⟩]
    let nodes : List Node := [.call "foo" [], .return none]
    let encoder := Encoder.new .default []
    ((∀ text ∈ node.strings, Unbroken text) ∧
      ∃ here there : Encoder,
        encode node encoder =
          some ("Switch( m )\n\t.Case( If( c, () => \x7b\n\n\t\tDiscard();" ++
            "\n\n\t\x7d ), () => \x7b\n\n\n\n\t\x7d )", here) ∧
        encode node encoder.deeper =
          some ("Switch( m )\n\t\t.Case( If( c, () => \x7b\n\n\t\t\tDiscard();" ++
            "\n\n\t\t\x7d ), () => \x7b\n\n\n\n\t\t\x7d )", there) ∧
        there.scope = here.scope ∧
        here.diagnostics =
          [.unterminatedCases ["If( c, () => \x7b\n\n\t\tDiscard();\n\n\t\x7d )"]] ∧
        there.diagnostics =
          [.unterminatedCases ["If( c, () => \x7b\n\n\t\t\tDiscard();\n\n\t\t\x7d )"]]) ∧
    (∀ node ∈ nodes, ∀ text ∈ node.strings, Unbroken text) ∧
      ∃ here there : Encoder,
        encodeBody nodes encoder = some ("\tfoo();\n\n\treturn;", here) ∧
        encodeBody nodes encoder.deeper = some ("\t\tfoo();\n\n\t\treturn;", there) := by
  intro node nodes encoder
  have hstrings : ∀ text ∈ node.strings, Unbroken text := by decide +kernel
  have hbody : ∀ node ∈ nodes, ∀ text ∈ node.strings, Unbroken text := by decide +kernel
  obtain ⟨found, hfound, hhere, hthere⟩ := (deeper_emission_shifts encoder).1 node hstrings
  obtain ⟨_, -, hbodyHere, hbodyThere⟩ := (deeper_emission_shifts encoder).2 nodes hbody
  have htext : (emit encoder.context node).text =
      "Switch( m )\n\t.Case( If( c, () => \x7b\n\n\t\tDiscard();" ++
        "\n\n\t\x7d ), () => \x7b\n\n\n\n\t\x7d )" := by decide +kernel
  have hshifted : shiftLines ("Switch( m )\n\t.Case( If( c, () => \x7b\n\n\t\tDiscard();" ++
      "\n\n\t\x7d ), () => \x7b\n\n\n\n\t\x7d )") =
      "Switch( m )\n\t\t.Case( If( c, () => \x7b\n\n\t\t\tDiscard();" ++
        "\n\n\t\t\x7d ), () => \x7b\n\n\n\n\t\t\x7d )" := by decide +kernel
  have hreport : (encoder.take (emit encoder.context node).notes).diagnostics =
      [.unterminatedCases ["If( c, () => \x7b\n\n\t\tDiscard();\n\n\t\x7d )"]] := by
    decide +kernel
  have hlines : (emitBody encoder.context.deeper nodes).text = "\tfoo();\n\n\treturn;" := by
    decide +kernel
  have hindented : (if "\tfoo();\n\n\treturn;" = "" then ""
      else "\t" ++ shiftLines "\tfoo();\n\n\treturn;") = "\t\tfoo();\n\n\t\treturn;" := by
    decide +kernel
  have hnone : encoder.diagnostics = [] := rfl
  rw [hreport, hnone, List.nil_append] at hfound
  rw [htext] at hhere
  rw [htext, hshifted] at hthere
  rw [hlines] at hbodyHere
  rw [hlines, hindented] at hbodyThere
  refine ⟨⟨hstrings, _, _, hhere, hthere, ?_, ?_, ?_⟩, hbody, _, _, hbodyHere, hbodyThere⟩
  · simp only [Encoder.deeper]
  · exact hreport
  · rw [← hfound]
    decide +kernel

end ShaderScript
