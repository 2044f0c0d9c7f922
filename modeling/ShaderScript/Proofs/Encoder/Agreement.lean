import ShaderScript.Proofs.Emission
import ShaderScript.Proofs.Encoder.Steps

/-!
# The encoder and the recursion over the tree

On every node, the encoder gives the text of the fragment and adds its notes. The encoder puts a
body and the chain of a switch together from the left, with what has been written so far in hand;
the fragments of the recursion are put together at the end.
-/

namespace ShaderScript

open Script

/-! ## Texts are never empty -/

theorem apply_ne_empty (name : String) (args : List String) : apply name args ≠ "" := by
  cases args <;> simp [apply]

theorem orUnknown_ne_empty (text : String) : orUnknown text ≠ "" := by
  unfold orUnknown
  split
  · decide
  · simpa [String.isEmpty_iff] using ‹¬ text.isEmpty = true›

theorem text_emit_ne_empty (context : Context) (node : Node) : (emit context node).text ≠ "" := by
  induction node using Node.parts_induction with
  | step node ih =>
  cases node with
  | number value kind =>
    rw [emit, Form.number]
    split
    · exact apply_ne_empty kind.spelling [value]
    · exact orUnknown_ne_empty value
  | accessor property =>
    rw [emit]
    exact orUnknown_ne_empty _
  | chain object elements =>
    have hobject := ih object List.mem_cons_self
    simp [emit, Form.chain, hobject]
  | operator op left right =>
    rw [emit, Form.binary]
    split_ifs <;> simp [method, apply_ne_empty]
  | unary op operand trailing =>
    obtain ⟨value, kind, rfl, hemit⟩ | ⟨-, hemit⟩ := emit_unary_cases context op operand trailing
    · simp [hemit, Form.signedNumber, apply_ne_empty]
    · rw [hemit, Form.unary]
      split
      · exact ih operand List.mem_cons_self
      · split_ifs <;> simp [method, apply_ne_empty]
  | call name args =>
    rw [emit, Form.call]
    split
    · rename_i hchain
      obtain ⟨sampling, -, hmatch⟩ := Option.bind_eq_some_iff.mp hchain
      split at hmatch <;> cases hmatch <;> simp [method]
    · exact apply_ne_empty _ _
  | loop initial condition afterthought body =>
    cases hcounting : Counting.ofLoop? initial condition afterthought with
    | some counting =>
      simp [emit_counting hcounting, Form.countingLoop, Counting.text, apply_ne_empty]
    | none => simp [emit_general hcounting, Form.generalLoop, block]
  | ternary => simp [emit, Form.ternary, apply_ne_empty]
  | «break» | «continue» | discard => simp [emit, Form.control, apply_ne_empty]
  | «return» value => cases value <;> simp [emit, Form.returned, Fragment.plain]
  | string => simp [emit, Fragment.plain, literal]
  | bindings => simp [emit, Form.bindings]
  | uniform => simp [emit, Form.uniform]
  | varying => simp [emit, Form.varying]
  | function | unknown =>
    rw [emit]
    exact show unknownStatement ≠ "" by decide
  | conditional => simp [emit, Form.conditional, apply_ne_empty]
  | switch => simp [emit, Form.switch, apply_ne_empty]

/-! ## Parts of a node -/

/-- The encoder and the recursion over the tree agree on the node, everywhere. -/
def Node.Agrees (node : Node) : Prop :=
  ∀ context, Encoding.Gives (encode node) context (emit context node).text
    (emit context node).notes

section Companions

variable (context : Context) {nodes : List Node} {branches : List (Branch Node)}

theorem gives_encodeOptional {part : Option Node} (h : ∀ node ∈ part, node.Agrees) :
    Encoding.Gives (encodeOptional part) context ((part.map (emit context)).map Fragment.text)
      (((part.map (emit context)).map Fragment.notes).getD []) := by
  cases part with
  | none =>
    rw [encodeOptional]
    exact .pure none
  | some node =>
    rw [encodeOptional]
    exact (h node rfl context).map some

theorem gives_encodeAll (h : ∀ node ∈ nodes, node.Agrees) :
    Encoding.Gives (encodeAll nodes) context (Fragment.texts (nodes.map (emit context)))
      (Fragment.allNotes (nodes.map (emit context))) := by
  induction nodes with
  | nil =>
    rw [encodeAll]
    exact .pure []
  | cons node nodes ih =>
    obtain ⟨hnode, hnodes⟩ := List.forall_mem_cons.mp h
    rw [encodeAll]
    exact (hnode context).bind ((ih hnodes).bind_pure _)

theorem gives_encodeElements {elements : List (Element Node)}
    (h : ∀ element ∈ elements, element.value.Agrees) (code : String) :
    Encoding.Gives (encodeElements code elements) context
      (code ++ String.join (Fragment.texts (elements.map (emitElement context))))
      (Fragment.allNotes (elements.map (emitElement context))) := by
  induction elements generalizing code with
  | nil =>
    rw [encodeElements]
    exact (Encoding.Gives.pure code).of_eq (by simp [Fragment.texts]) rfl
  | cons element elements ih =>
    obtain ⟨helement, helements⟩ := List.forall_mem_cons.mp h
    have hjoin (text : String) (h : (emitElement context element).text = text) :
        code ++ text ++ String.join (Fragment.texts (elements.map (emitElement context))) =
          code ++
            String.join (Fragment.texts ((element :: elements).map (emitElement context))) := by
      simp [Fragment.texts, h, String.append_assoc]
    cases element with
    | member value =>
      rw [encodeElements]
      refine ((helement context).bind (ih helements _)).of_eq (hjoin _ ?_) ?_
      · rw [emitElement, Form.link, Encoding.link]
        rfl
      · simp [Fragment.allNotes, emitElement, Form.link, Element.value]
    | index value =>
      rw [encodeElements]
      refine ((helement context).bind (ih helements _)).of_eq (hjoin _ ?_) ?_
      · rw [emitElement, Encoding.text_link_index]
        rfl
      · simp [Fragment.allNotes, emitElement, Encoding.notes_link_index, Element.value]

theorem gives_encodeDeclarators {declarators : List (Declarator Node)}
    (h : ∀ declarator ∈ declarators, ∀ node ∈ declarator.value, node.Agrees) :
    Encoding.Gives (encodeDeclarators declarators) context
      (Fragment.texts (declarators.map (emitDeclarator context)))
      (Fragment.allNotes (declarators.map (emitDeclarator context))) := by
  induction declarators with
  | nil =>
    rw [encodeDeclarators]
    exact .pure []
  | cons declarator declarators ih =>
    obtain ⟨hdeclarator, hdeclarators⟩ := List.forall_mem_cons.mp h
    obtain ⟨name, type, value, mutable⟩ := declarator
    rw [encodeDeclarators]
    refine ((gives_encodeOptional context hdeclarator).bind
      ((ih hdeclarators).bind_pure _)).of_eq ?_ ?_
    · simp only [Fragment.texts, List.map_cons, emitDeclarator, emitOptional_eq_map]
      congr 1
      cases value with
      | none => rfl
      | some node => cases h : Node.isCallOf type node <;> simp [Encoding.binding, Form.binding, h]
    · simp only [Fragment.allNotes, List.map_cons, List.flatMap_cons, emitDeclarator,
        emitOptional_eq_map]
      congr 1
      cases value with
      | none => rfl
      | some node => cases h : Node.isCallOf type node <;> simp [Form.binding, h]

/-! ## Bodies -/

theorem terminator_append (before : String) {text : String} (h : text ≠ "") :
    Body.terminator (before ++ text) = Body.terminator text := by
  have hlast : (before ++ text).toList.getLast? = text.toList.getLast? := by
    cases hchars : text.toList with
    | nil => exact absurd (String.toList_eq_nil_iff.mp hchars) h
    | cons => simp [hchars, List.getLast?_append, List.getLast?_cons]
  simp only [Body.terminator, hlast]

theorem join_map_break (first : String) (rest : List String) :
    String.join ((first :: rest).map (· ++ "\n")) = "\n".intercalate (first :: rest) ++ "\n" := by
  induction rest generalizing first with
  | nil => simp
  | cons second rest ih =>
    rw [List.map_cons, String.join_cons, ih, String.intercalate_cons_cons]
    simp only [String.append_assoc]

theorem dropBreak_append (text : String) : Encoding.dropBreak (text ++ "\n") = text := by
  simp [Encoding.dropBreak]

theorem dropBreak_join (lines : List String) :
    Encoding.dropBreak (String.join (lines.map (· ++ "\n"))) = "\n".intercalate lines := by
  cases lines with
  | nil => rfl
  | cons first rest =>
    rw [join_map_break, dropBreak_append]

/-- The accumulated code ends like the statement that was added last, so that the semicolon is
decided by the statement alone. -/
theorem gives_encodeStatements (h : ∀ node ∈ nodes, node.Agrees) (previous : Option Node)
    (code : String) :
    Encoding.Gives (encodeStatements previous code nodes) context
      (code ++ String.join
        ((Body.lines context.depth previous
          ((Body.kept context.inCase nodes).map fun node => (node, emit context node))).map
          (· ++ "\n")))
      ((Body.kept context.inCase nodes).flatMap fun node => (emit context node).notes) := by
  induction nodes generalizing previous code with
  | nil =>
    rw [encodeStatements]
    exact (Encoding.Gives.pure code).of_eq (by simp [Body.kept, Body.lines]) rfl
  | cons node nodes ih =>
    obtain ⟨hnode, hnodes⟩ := List.forall_mem_cons.mp h
    rw [encodeStatements]
    refine Encoding.Gives.get fun encoder hcontext => ?_
    have hcase : decide (encoder.block = .case) = context.inCase := by
      subst hcontext
      rfl
    rw [hcase]
    cases hdropped : Body.isDropped context.inCase node with
    | true => simpa [Body.kept, hdropped] using ih hnodes previous code
    | false =>
      refine (Encoding.Gives.depth ((hnode context).bind (ih hnodes _ _))).of_eq ?_ ?_
      · have hterminator := terminator_append
          (code ++ (Body.gap previous node ++ tabs context.depth)) (text_emit_ne_empty context node)
        simp only [String.append_assoc] at hterminator
        simp [Body.kept, hdropped, Body.lines, hterminator, String.append_assoc]
      · simp [Body.kept, hdropped]

theorem gives_body (h : ∀ node ∈ nodes, node.Agrees) :
    Encoding.Gives (Encoding.body (encodeStatements none "" nodes)) context
      (emitBody context.deeper nodes).text (emitBody context.deeper nodes).notes := by
  refine (((gives_encodeStatements context.deeper h none "").map _).deeper).of_eq ?_ ?_
  · rw [String.empty_append, dropBreak_join, emitBody, Body.ofFragments, Body.assemble_map]
  · rw [notes_emitBody]

/-! ## Branches -/

theorem gives_encodeAlternates
    (h : ∀ branch ∈ branches, ∀ node ∈ branch.parts, node.Agrees) (code : String) :
    Encoding.Gives (encodeAlternates code branches) context
      (code ++ String.join (Fragment.texts
        ((branches.map (emitAlternate context)).map (Form.alternate context.depth))))
      (Fragment.allNotes
        ((branches.map (emitAlternate context)).map (Form.alternate context.depth))) := by
  induction branches generalizing code with
  | nil =>
    rw [encodeAlternates]
    exact (Encoding.Gives.pure code).of_eq (by simp [Fragment.texts]) rfl
  | cons branch branches ih =>
    obtain ⟨hbranch, hbranches⟩ := List.forall_mem_cons.mp h
    obtain ⟨condition, statements⟩ := branch
    have hcondition : ∀ node ∈ condition, node.Agrees := fun node hn =>
      hbranch node (List.mem_append_left _ (Option.mem_toList.mpr hn))
    have hstatements : ∀ node ∈ statements, node.Agrees := fun node hn =>
      hbranch node (List.mem_append_right _ hn)
    rw [encodeAlternates]
    refine ((gives_body context hstatements).bind ((gives_encodeOptional context hcondition).bind
      ((Encoding.gives_alternateLink context _ _).bind (ih hbranches _)))).of_eq ?_ ?_
    · simp [Fragment.texts, emitAlternate, String.append_assoc]
    · cases condition <;> simp [Fragment.allNotes, emitAlternate, Form.alternate]

/-- The body of a case, if it has statements. -/
def caseBody (statements : List Node) : Option Fragment :=
  if statements.isEmpty then none else some (emitBody context.deeper statements)

theorem emitCase_eq (condition : Option Node) (statements : List Node) :
    emitCase context ⟨condition, statements⟩ =
      (condition.map (emit context), caseBody context statements) := by
  simp [emitCase, caseBody]

/-- Without statements, the body is empty. -/
theorem text_caseBody (statements : List Node) :
    ((caseBody context statements).map Fragment.text).getD "" =
      (emitBody context.deeper statements).text := by
  cases statements <;> rfl

theorem notes_caseBody (statements : List Node) :
    ((caseBody context statements).map Fragment.notes).getD [] =
      (emitBody context.deeper statements).notes := by
  cases statements <;> rfl

/-- The notes of labels that wait have been taken already; the others follow in the order in which
the arms have them. -/
theorem gives_encodeCases
    (h : ∀ branch ∈ branches, ∀ node ∈ branch.parts, node.Agrees) (labels : List Fragment) :
    let arms := (Arm.group labels (branches.map (emitCase context))).map (Form.arm context.depth)
    ∃ own, Fragment.allNotes arms = Fragment.allNotes labels ++ own ∧
      ∀ code, Encoding.Gives (encodeCases (Fragment.texts labels) code branches) context
        (code ++ String.join (Fragment.texts arms)) own := by
  induction branches generalizing labels with
  | nil =>
    cases labels with
    | nil =>
      refine ⟨[], rfl, fun code => ?_⟩
      rw [encodeCases]
      exact (Encoding.Gives.pure code).of_eq (by simp [Arm.group, Fragment.texts]) rfl
    | cons label labels =>
      have hempty : Encoding.Gives (Encoding.body (pure "")) context "" [] :=
        ((Encoding.Gives.pure "").map Encoding.dropBreak).deeper
      refine ⟨[.report (.unterminatedCases (Fragment.texts (label :: labels)))], ?_, fun code => ?_⟩
      · simp [Arm.group, Fragment.allNotes, Form.arm]
      · rw [encodeCases]
        refine ((Encoding.Gives.record _).bind (hempty.bind
          ((Encoding.gives_caseLink context _ _).bind_pure (code ++ ·)))).of_eq ?_ rfl
        simp [Arm.group, Fragment.texts, Form.arm]
  | cons branch branches ih =>
    obtain ⟨hbranch, hbranches⟩ := List.forall_mem_cons.mp h
    obtain ⟨condition, statements⟩ := branch
    have hbody := gives_body context fun node hn =>
      hbranch node (List.mem_append_right condition.toList hn)
    rw [List.map_cons, emitCase_eq]
    cases condition with
    | none =>
      obtain ⟨own, hnotes, hrest⟩ := ih hbranches []
      cases labels with
      | nil =>
        refine ⟨(emitBody context.deeper statements).notes ++ own, ?_, fun code => ?_⟩
        · simpa [Arm.group, Form.arm, Fragment.allNotes, notes_caseBody] using hnotes
        · rw [encodeCases]
          refine ((Encoding.Gives.pure "").bind (hbody.bind
            ((Encoding.gives_defaultLink context _).bind (hrest _)))).of_eq ?_ rfl
          simp [Arm.group, Form.arm, Fragment.texts, text_caseBody, String.append_assoc]
      | cons label labels =>
        have hshared := hbody.bind
          (Encoding.gives_caseLink context (Fragment.texts (label :: labels)) _)
        refine ⟨(emitBody context.deeper statements).notes ++
          ((emitBody context.deeper statements).notes ++ own), ?_, fun code => ?_⟩
        · simpa [Arm.group, Form.arm, Fragment.allNotes, notes_caseBody] using hnotes
        · rw [encodeCases]
          refine (hshared.bind (hbody.bind
            ((Encoding.gives_defaultLink context _).bind (hrest _)))).of_eq ?_ (by simp)
          simp [Arm.group, Form.arm, Fragment.texts, text_caseBody, String.append_assoc]
    | some condition =>
      have hcondition := hbranch condition List.mem_cons_self context
      have hlabels : Fragment.texts labels ++ [(emit context condition).text] =
          Fragment.texts (labels ++ [emit context condition]) := by
        simp [Fragment.texts]
      cases statements with
      | nil =>
        obtain ⟨own, hnotes, hrest⟩ := ih hbranches (labels ++ [emit context condition])
        refine ⟨(emit context condition).notes ++ own, ?_, fun code => ?_⟩
        · simpa [Arm.group, caseBody, Fragment.allNotes] using hnotes
        · rw [encodeCases]
          refine hcondition.bind ?_
          rw [hlabels]
          simpa [Arm.group, caseBody] using hrest code
      | cons first rest =>
        obtain ⟨own, hnotes, hrest⟩ := ih hbranches []
        refine ⟨(emit context condition).notes ++
          ((emitBody context.deeper (first :: rest)).notes ++ own), ?_, fun code => ?_⟩
        · simpa [Arm.group, caseBody, Form.arm, Fragment.allNotes] using hnotes
        · rw [encodeCases]
          refine hcondition.bind ?_
          rw [hlabels]
          refine (hbody.bind ((Encoding.gives_caseLink context _ _).bind (hrest _))).of_eq ?_ rfl
          simp [Arm.group, caseBody, Form.arm, Fragment.texts, String.append_assoc]

end Companions

/-! ## Agreement -/

section Nodes

variable {context : Context} {node : Node} {step : Encoding String}

/-- The stand-in is for nodes without a text, and there are none among these. -/
theorem gives_orUnknown
    (h : Encoding.Gives step context (emit context node).text (emit context node).notes) :
    Encoding.Gives (orUnknown <$> step) context (emit context node).text
      (emit context node).notes := by
  refine (h.map orUnknown).of_eq ?_ rfl
  simpa [orUnknown] using fun hempty => absurd hempty (text_emit_ne_empty context node)

theorem agrees_unary (op : UnaryOp) {operand : Node} (trailing : Bool) (h : operand.Agrees) :
    (Node.unary op operand trailing).Agrees := by
  intro context
  obtain ⟨value, kind, rfl, hemit⟩ | ⟨hother, hemit⟩ := emit_unary_cases context op operand trailing
  · rw [encode]
    refine gives_orUnknown ?_
    rw [hemit]
    exact (Encoding.Gives.record _).bind_pure _
  · rw [encode]
    · refine gives_orUnknown (Encoding.Gives.get fun encoder hcontext => ?_)
      obtain ⟨own, hform, hnotes⟩ :=
        Encoding.gives_unary context op trailing context.initializing (emit context operand)
      rw [hemit, hnotes]
      subst hcontext
      exact (h _).bind hform
    · exact hother

theorem agrees_conditional {condition : Node} {body : List Node} {alternates : List (Branch Node)}
    (hcondition : condition.Agrees) (hbody : ∀ node ∈ body, node.Agrees)
    (halternates : ∀ branch ∈ alternates, ∀ node ∈ branch.parts, node.Agrees) :
    (Node.conditional condition body alternates).Agrees := by
  intro context
  rw [encode]
  refine gives_orUnknown ?_
  rw [emit, emitAlternates_eq_map, emitAll_eq_map, ofFragments_eq_emitBody]
  refine ((hcondition context).bind ((gives_body context hbody).bind
    (.depth ((gives_encodeAlternates context halternates _).bind
      ((Encoding.Gives.record _).bind_pure _))))).of_eq rfl ?_
  simp [Form.conditional]

theorem agrees_switch {discriminant : Node} {cases : List (Branch Node)}
    (hdiscriminant : discriminant.Agrees)
    (hcases : ∀ branch ∈ cases, ∀ node ∈ branch.parts, node.Agrees) :
    (Node.switch discriminant cases).Agrees := by
  intro context
  obtain ⟨own, hnotes, harms⟩ := gives_encodeCases context.cases hcases []
  have hcode (code : String) : Encoding.Gives
      (Encoding.inBlock .case (encodeCases [] code cases)) context.deeper _ own :=
    .inBlock .case (harms code)
  have hown : Fragment.allNotes ((Arm.group [] (cases.map (emitCase context.cases))).map
      (Form.arm (context.depth + 1))) = own := hnotes
  have hall : (Form.switch context.depth (emit context discriminant)
      (cases.map (emitCase context.cases))).notes =
      (emit context discriminant).notes ++ (own ++ [.require "Switch"]) := by
    simp [Form.switch, hown]
  rw [encode]
  refine gives_orUnknown ?_
  rw [emit, emitCases_eq_map, hall]
  exact (hdiscriminant context).bind
    ((Encoding.Gives.depth (hcode _)).deeper.bind ((Encoding.Gives.record _).bind_pure _))

/-- Of the afterthought of a loop that counts, the step or the assignment is looked at. -/
theorem gives_update (context : Context) {counter : String} {last : Node} {update : Update Node}
    (hsteps : Counting.Steps counter last update)
    (h : ∀ operand ∈ update.operand?, operand.Agrees) :
    Encoding.Gives
      (match update with
        | .increment => pure .increment
        | .decrement => pure .decrement
        | .step _ => .step <$> encodeRight (some last)
        | .assign _ => .assign <$> encodeAssignment (some last))
      context ((update.map (emit context)).map Fragment.text)
      (((update.map (emit context)).operand?.map Fragment.notes).getD []) := by
  cases hsteps with
  | increment => exact .pure _
  | decrement => exact .pure _
  | @step op amount =>
    simp only [encodeRight]
    exact (h amount rfl context).map Update.step
  | @assign op amount =>
    simp only [encodeAssignment]
    exact (h _ rfl context).map Update.assign

/-- The parts of a loop that counts are looked at one by one. -/
theorem agrees_counting {initial condition afterthought : Option Node} {body : List Node}
    {counting : Counting Node}
    (hcounting : Counting.ofLoop? initial condition afterthought = some counting)
    (hstart : counting.start.Agrees) (hlimit : counting.limit.Agrees)
    (hupdate : ∀ operand ∈ counting.update.operand?, operand.Agrees)
    (hbody : ∀ node ∈ body, node.Agrees) :
    (Node.loop initial condition afterthought body).Agrees := by
  intro context
  rw [encode]
  refine gives_orUnknown ?_
  rw [emit_counting hcounting, hcounting]
  obtain ⟨mutable, last, rfl, rfl, -, rfl, hsteps⟩ := Counting.shape_of_ofLoop? hcounting
  have hcontent := (gives_body context.outsideCase hbody).inBlock .loop
  rw [encodeStart, encodeRight]
  have hnotes : (Form.countingLoop context.depth (counting.map (emit context))
      (emitBody context.outsideCase.deeper body)).notes =
      (emit context counting.start).notes ++ ((emit context counting.limit).notes ++
        (((counting.update.map (emit context)).operand?.map Fragment.notes).getD [] ++
          ((emitBody context.outsideCase.deeper body).notes ++ ([.require "Loop"] ++ [])))) := by
    simp [Form.countingLoop, Counting.map]
  rw [hnotes]
  exact (hstart context).bind ((hlimit context).bind ((gives_update context hsteps hupdate).bind
    (hcontent.bind ((Encoding.Gives.record _).bind (.depth_pure _)))))

/-- The parts of a loop that does not count are looked at before its body, and outside its block. -/
theorem agrees_general {initial condition afterthought : Option Node} {body : List Node}
    (hgeneral : Counting.ofLoop? initial condition afterthought = none)
    (hinitial : ∀ node ∈ initial, node.Agrees) (hcondition : ∀ node ∈ condition, node.Agrees)
    (hafterthought : ∀ node ∈ afterthought, node.Agrees) (hbody : ∀ node ∈ body, node.Agrees) :
    (Node.loop initial condition afterthought body).Agrees := by
  intro context
  rw [encode]
  refine gives_orUnknown ?_
  rw [emit_general hgeneral, hgeneral]
  have hcontent : Encoding.Gives
      (Encoding.inBlock .loop (Encoding.body (encodeStatements none "" body))) context.deeper
      (emitBody context.outsideCase.deeper.deeper body).text
      (emitBody context.outsideCase.deeper.deeper body).notes :=
    .inBlock .loop (gives_body context.outsideCase.deeper hbody)
  have htext : (Form.generalLoop context.depth (initial.map (emit context))
      (condition.map (emit context)) (afterthought.map (emit context))
      (emitBody context.outsideCase.deeper.deeper body)).text =
      block context.depth (Encoding.loopContent (context.depth + 1)
        ((initial.map (emit context)).map Fragment.text)
        ((condition.map (emit context)).map Fragment.text)
        ((afterthought.map (emit context)).map Fragment.text)
        (emitBody context.outsideCase.deeper.deeper body).text) := by
    cases initial <;> cases afterthought <;> rfl
  have hnotes : (Form.generalLoop context.depth (initial.map (emit context))
      (condition.map (emit context)) (afterthought.map (emit context))
      (emitBody context.outsideCase.deeper.deeper body)).notes =
      ((initial.map (emit context)).map Fragment.notes).getD [] ++
        (((condition.map (emit context)).map Fragment.notes).getD [] ++
          (((afterthought.map (emit context)).map Fragment.notes).getD [] ++
            (((emitBody context.outsideCase.deeper.deeper body).notes ++ []) ++
              ([.require "Loop"] ++ [])))) := by
    simp [Form.generalLoop]
  rw [htext, hnotes]
  exact (gives_encodeOptional context hinitial).bind
    ((gives_encodeOptional context hcondition).bind
      ((gives_encodeOptional context hafterthought).bind
        ((hcontent.bind (.depth_pure _)).deeper.bind
          ((Encoding.Gives.record _).bind (.depth_pure _)))))

/-- A loop that counts is taken apart down to the parts of its parts. -/
theorem agrees_loop {initial condition afterthought : Option Node} {body : List Node}
    (h : ∀ part ∈ (Node.loop initial condition afterthought body).parts,
      part.Agrees ∧ ∀ inner ∈ part.parts, inner.Agrees) :
    (Node.loop initial condition afterthought body).Agrees := by
  have hbody : ∀ node ∈ body, node.Agrees := fun node hn =>
    (h node (List.mem_append_right _ hn)).1
  cases hcounting : Counting.ofLoop? initial condition afterthought with
  | none =>
    refine agrees_general hcounting ?_ ?_ ?_ hbody
    all_goals exact fun node hn => (h node (by simp [Node.parts, Option.mem_def.mp hn])).1
  | some counting =>
    obtain ⟨mutable, last, rfl, rfl, -, rfl, hsteps⟩ := Counting.shape_of_ofLoop? hcounting
    have hfirst := (h (.bindings [⟨counting.name, counting.type, some counting.start, mutable⟩])
      (by simp [Node.parts])).2
    have htest := (h (.operator counting.comparison (.accessor counting.name) counting.limit)
      (by simp [Node.parts])).2
    have hlast := h last (by simp [Node.parts])
    refine agrees_counting hcounting (hfirst _ (by simp [Node.parts]))
      (htest _ (by simp [Node.parts])) (fun operand ho => ?_) hbody
    obtain rfl | hpart := hsteps.operand ho
    · exact hlast.1
    · exact hlast.2 operand hpart

end Nodes

/-- The encoder and the recursion over the tree agree on every node. -/
theorem Node.agrees (node : Node) : node.Agrees := by
  induction node using Node.parts_induction₂ with
  | step node ih =>
  have hparts : ∀ part ∈ node.parts, part.Agrees := fun part hp => (ih part hp).1
  intro context
  cases node with
  | number value kind =>
    rw [encode]
    cases hnarrow : kind.isNarrow with
    | true =>
      refine gives_orUnknown ?_
      rw [emit, Form.number, if_pos hnarrow]
      exact (Encoding.Gives.record _).bind_pure _
    | false =>
      rw [emit, Form.number, hnarrow]
      exact (Encoding.Gives.pure value).map orUnknown
  | accessor property =>
    rw [encode, emit]
    exact ((Encoding.Gives.record _).bind_pure fun _ => property).map orUnknown
  | function | unknown =>
    rw [encode, emit]
    exact ((Encoding.Gives.record _).bind_pure fun _ => "").map orUnknown
  | string value =>
    rw [encode]
    refine gives_orUnknown ?_
    rw [emit]
    exact .pure _
  | chain object elements =>
    rw [encode]
    refine gives_orUnknown ?_
    rw [emit, emitElements_eq_map]
    refine (hparts object List.mem_cons_self context).bind (gives_encodeElements context ?_ _)
    exact fun element he => hparts _ (List.mem_cons_of_mem _ (List.mem_map_of_mem he))
  | operator op left right =>
    obtain ⟨own, hform, hnotes⟩ :=
      Encoding.gives_binary context op (emit context left) (emit context right)
    rw [encode]
    refine gives_orUnknown ?_
    rw [emit, hnotes]
    exact (hparts left (by simp [Node.parts]) context).bind
      ((hparts right (by simp [Node.parts]) context).bind hform)
  | unary op operand trailing =>
    exact agrees_unary op trailing (hparts operand List.mem_cons_self) context
  | ternary condition left right =>
    rw [encode]
    refine gives_orUnknown ?_
    rw [emit]
    refine ((hparts condition (by simp [Node.parts]) context).bind
      ((hparts left (by simp [Node.parts]) context).bind
        ((hparts right (by simp [Node.parts]) context).bind
          ((Encoding.Gives.record _).bind_pure _)))).of_eq rfl ?_
    simp [Form.ternary]
  | call name args =>
    obtain ⟨own, hform, hnotes⟩ := Encoding.gives_call context name (args.map (emit context))
    rw [encode]
    refine gives_orUnknown ?_
    rw [emit, emitAll_eq_map, hnotes]
    exact (gives_encodeAll context hparts).bind hform
  | «return» value =>
    rw [encode]
    refine gives_orUnknown ?_
    rw [emit, emitOptional_eq_map]
    have hvalue := gives_encodeOptional context fun node hn =>
      hparts node (Option.mem_toList.mpr hn)
    cases value with
    | none => exact hvalue.bind (.pure "return")
    | some value =>
      exact (hvalue.bind (.pure ("return " ++ (emit context value).text))).of_eq rfl
        (List.append_nil _)
  | «break» | «continue» | discard =>
    rw [encode]
    refine gives_orUnknown ?_
    rw [emit]
    exact Encoding.gives_control context _
  | bindings declarators =>
    rw [encode]
    refine gives_orUnknown ?_
    rw [emit, emitDeclarators_eq_map]
    have hvalues := gives_encodeDeclarators context.initializers fun declarator hd node hn =>
      hparts node (List.mem_filterMap.mpr ⟨declarator, hd, hn⟩)
    exact (hvalues.bind ((Encoding.Gives.recordEach _).bind_pure _)).inDeclaration
  | uniform name type =>
    rw [encode]
    refine gives_orUnknown ?_
    rw [emit]
    exact Encoding.gives_uniform context name type
  | varying name type =>
    rw [encode]
    refine gives_orUnknown ?_
    rw [emit]
    exact Encoding.gives_varying context name type
  | conditional condition body alternates =>
    have hbody : ∀ node ∈ body, node.Agrees := fun node hn =>
      hparts node (List.mem_cons_of_mem _ (List.mem_append_left _ hn))
    have halternates : ∀ branch ∈ alternates, ∀ node ∈ branch.parts, node.Agrees :=
      fun branch hb node hn => hparts node
        (List.mem_cons_of_mem _ (List.mem_append_right _ (List.mem_flatMap.mpr ⟨branch, hb, hn⟩)))
    exact agrees_conditional (hparts condition List.mem_cons_self) hbody halternates context
  | switch discriminant cases =>
    have hcases : ∀ branch ∈ cases, ∀ node ∈ branch.parts, node.Agrees :=
      fun branch hb node hn => hparts node
        (List.mem_cons_of_mem _ (List.mem_flatMap.mpr ⟨branch, hb, hn⟩))
    exact agrees_switch (hparts discriminant List.mem_cons_self) hcases context
  | loop => exact agrees_loop ih context

end ShaderScript
