import ShaderScript.Proofs.BreakCounts
import ShaderScript.Proofs.Breaks
import ShaderScript.Proofs.Switches

/-!
# Emission with breaks as calls

Where some breaks of a node are written as calls, its fragment stays the same if none of them
leaves a switch, and mentions `Break` more often if one does. The context of a node says whether a
switch is what a break in its place leaves, so the two are carried through the tree together. A body
is compared statement by statement, a switch arm by arm, a counting loop by the parts of its header.
-/

namespace ShaderScript

open Breaks Fragment

/-! ## Bodies -/

/-- How a statement is set apart from its neighbours. -/
def Node.spacing (node : Node) : Bool × Bool :=
  (node.isExpressionLike, node.kind == .return)

namespace Body

theorem gap_congr {previous before : Option Node} {current node : Node}
    (hprevious : previous.map Node.spacing = before.map Node.spacing)
    (hcurrent : current.spacing = node.spacing) : gap previous current = gap before node := by
  have hgap : ∀ (previous : Option Node) (current : Node), gap previous current =
      (previous.map Node.spacing).elim "" fun before =>
        if current.spacing.2 || !(before.1 && current.spacing.1) then "\n" else "" := by
    intro previous current
    cases previous with
    | none => rfl
    | some previous =>
      cases current <;> cases h : previous.isExpressionLike <;>
        simp only [gap, Node.spacing, Option.map_some, h] <;> rfl
  rw [hgap, hgap, hprevious, hcurrent]

theorem lines_congr {depth : Nat} {previous before : Option Node}
    {entries others : List (Node × Fragment)}
    (hprevious : previous.map Node.spacing = before.map Node.spacing)
    (h : entries.map (Prod.map Node.spacing id) = others.map (Prod.map Node.spacing id)) :
    lines depth previous entries = lines depth before others := by
  induction entries generalizing previous before others with
  | nil =>
    obtain rfl : others = [] := by simpa using h
    rfl
  | cons entry entries ih =>
    obtain ⟨other, others, rfl⟩ : ∃ other rest, others = other :: rest := by
      cases others <;> simp_all
    obtain ⟨node, fragment⟩ := entry
    obtain ⟨node', fragment'⟩ := other
    simp only [List.map_cons, Prod.map, id_eq, List.cons.injEq, Prod.mk.injEq] at h
    obtain ⟨⟨hspacing, rfl⟩, hrest⟩ := h
    have hnext : (some node).map Node.spacing = (some node').map Node.spacing :=
      congrArg some hspacing
    rw [lines, lines, gap_congr hprevious hspacing, ih hnext hrest]

end Body

section Pieces

variable (context : Context)

/-- What a body takes from a statement, if it does not leave it out. -/
def piece? (node : Node) : Option ((Bool × Bool) × Fragment) :=
  if Body.isDropped context.inCase node then none else some (node.spacing, emit context node)

def pieceCount (piece : Option ((Bool × Bool) × Fragment)) : Nat :=
  piece.elim 0 fun piece => piece.2.breakCount

theorem map_kept (nodes : List Node) :
    (Body.kept context.inCase nodes).map (fun node => (node.spacing, emit context node)) =
      (nodes.map (piece? context)).filterMap id := by
  induction nodes with
  | nil => rfl
  | cons node nodes ih =>
    rw [Body.kept, List.filter_cons]
    cases h : Body.isDropped context.inCase node <;> simp_all [Body.kept, piece?]

variable {context}

/-- A body is known from what it takes from its statements. -/
theorem emitBody_congr {nodes others : List Node}
    (h : nodes.map (piece? context) = others.map (piece? context)) :
    emitBody context nodes = emitBody context others := by
  have hkept : (Body.kept context.inCase nodes).map
        (fun node => (node.spacing, emit context node)) =
      (Body.kept context.inCase others).map fun node => (node.spacing, emit context node) := by
    rw [map_kept, map_kept, h]
  have hlines : ((Body.kept context.inCase nodes).map fun node => (node, emit context node)).map
        (Prod.map Node.spacing id) =
      ((Body.kept context.inCase others).map fun node => (node, emit context node)).map
        (Prod.map Node.spacing id) := by
    simpa [Function.comp_def] using hkept
  have hnotes := congrArg (fun pieces => pieces.flatMap fun piece => piece.2.notes) hkept
  simp only [List.flatMap_map] at hnotes
  rw [emitBody, emitBody, Body.ofFragments, Body.ofFragments, Body.assemble_map, Body.assemble_map,
    Body.lines_congr rfl hlines, hnotes]

theorem breakCount_emitBody (nodes : List Node) :
    (emitBody context nodes).breakCount = total pieceCount (nodes.map (piece? context)) := by
  rw [breakCount, notes_emitBody]
  induction nodes with
  | nil => rfl
  | cons node nodes ih =>
    rw [Body.kept, List.filter_cons]
    cases h : Body.isDropped context.inCase node <;>
      simp_all [Body.kept, piece?, pieceCount, breakCount]

end Pieces

/-! ## Nodes -/

/-- The context of a node that has the given loop or switch around it. -/
def Context.Within (context : Context) (enclosure : Option Enclosure) : Prop :=
  context.inCase = decide (enclosure = some .switch)

/-- Writing breaks inside the node as calls changes nothing if none of them leaves a switch, and
adds a mention of `Break` if one does. -/
def Tracks (rule : Place → Bool) (node : Node) : Prop :=
  ∀ ⦃context : Context⦄ ⦃enclosure : Option Enclosure⦄, context.Within enclosure →
    Grows breakCount (emit context node) (emit context (spell rule enclosure node))
      (Spares rule enclosure node)

section Nodes

variable {rule : Place → Bool} {context : Context} {enclosure : Option Enclosure}

theorem emit_call : emit context call = emit context .break := by
  simp [call, emit, Form.call, Form.control, Fragment.texts, Fragment.allNotes, sampleChain?]

theorem spacing_spell (node : Node) : (spell rule enclosure node).spacing = node.spacing := by
  cases node <;> simp [spell, Node.spacing, Node.kind, Node.isExpressionLike]

theorem isDropped_eq_false {node : Node} (inCase : Bool) (h : node.kind ≠ .break) :
    Body.isDropped inCase node = false := by
  cases node <;> first | rfl | exact absurd rfl h

/-- A break itself is left out of the cases of a switch, and its call is not. -/
theorem grows_break (hcontext : context.Within enclosure) (closing : Bool) :
    Grows pieceCount (piece? context .break)
      (piece? context (spellStatement rule enclosure closing .break))
      (rule ⟨enclosure, closing⟩ → enclosure ≠ some .switch) := by
  by_cases hrule : rule ⟨enclosure, closing⟩
  · have hcall : spellStatement rule enclosure closing .break = call := by
      simp [spellStatement, Node.kind, hrule]
    rw [hcall]
    by_cases hswitch : enclosure = some .switch
    · have hin : context.inCase = true := hcontext.trans (decide_eq_true hswitch)
      refine ⟨fun hp => absurd hswitch (hp hrule), fun _ => ?_⟩
      simp [piece?, pieceCount, Body.isDropped, hin, call, emit, Form.breakCount_call]
    · have hout : context.inCase = false := hcontext.trans (decide_eq_false hswitch)
      refine ⟨fun _ => ?_, fun hp => absurd (fun _ => hswitch) hp⟩
      have hspacing : call.spacing = Node.break.spacing := by decide
      simp only [piece?, hout, emit_call, hspacing]
      rfl
  · have hsame : spellStatement rule enclosure closing .break = .break := by
      simp [spellStatement, hrule, spell]
    rw [hsame]
    exact (Grows.refl _ _).congr (by simp [hrule])

theorem grows_statement {node : Node} (h : Tracks rule node) (hcontext : context.Within enclosure)
    (closing : Bool) :
    Grows pieceCount (piece? context node)
      (piece? context (spellStatement rule enclosure closing node))
      ((node.kind = .break → rule ⟨enclosure, closing⟩ → enclosure ≠ some .switch) ∧
        Spares rule enclosure node) := by
  by_cases hbreak : node.kind = .break
  · obtain rfl : node = .break := by
      cases node <;> first | rfl | cases hbreak
    have hspares : Spares rule enclosure .break := spares_leaf rfl rfl
    exact (grows_break hcontext closing).congr (by simp [hbreak, hspares])
  · have hspell : spellStatement rule enclosure closing node = spell rule enclosure node := by
      simp [spellStatement, hbreak]
    have hpiece : Grows pieceCount (some (node.spacing, emit context node))
        (some (node.spacing, emit context (spell rule enclosure node)))
        (Spares rule enclosure node) :=
      (h hcontext).map (fun fragment => some (node.spacing, fragment)) 0 (by simp [pieceCount])
    rw [hspell, piece?, piece?, isDropped_eq_false _ hbreak,
      isDropped_eq_false _ (by rwa [kind_spell]), spacing_spell]
    exact hpiece.congr (by simp [hbreak])

/-- Statement by statement, each with whether it ends a case. -/
theorem grows_pieces (context : Context) (block : Block) (hcontext : context.Within block.enclosure)
    (h : ∀ statement ∈ block.statements, Tracks rule statement) :
    Grows (total pieceCount) (block.statements.map (piece? context))
      ((spellBody rule block.enclosure block.isCase block.statements).map (piece? context))
      (block.Spares rule) := by
  have hentries : ∀ entry ∈ block.marked, Tracks rule entry.2 := by
    intro entry hentry
    refine h entry.2 ?_
    rw [← map_snd_marked block.isCase block.statements]
    exact List.mem_map_of_mem hentry
  have hpieces := Grows.list fun entry hentry =>
    grows_statement (hentries entry hentry) hcontext entry.1
  have hold : block.statements.map (piece? context) =
      block.marked.map fun entry => piece? context entry.2 := by
    conv_lhs => rw [← map_snd_marked block.isCase block.statements]
    simp [Block.marked]
  have hnew : (spellBody rule block.enclosure block.isCase block.statements).map (piece? context) =
      block.marked.map fun entry =>
        piece? context (spellStatement rule block.enclosure entry.1 entry.2) := by
    simp [spellBody_eq_map, Block.marked]
  rw [hold, hnew]
  exact hpieces.congr Block.spares_iff.symm

theorem Grows.emitBody {nodes others : List Node} {p : Prop}
    (h : Grows (total pieceCount) (nodes.map (piece? context))
      (others.map (piece? context)) p) :
    Grows breakCount (emitBody context nodes) (emitBody context others) p where
  eq hp := emitBody_congr (h.eq hp)
  lt hp := by
    rw [breakCount_emitBody, breakCount_emitBody]
    exact h.lt hp

theorem grows_block (context : Context) (block : Block) (hcontext : context.Within block.enclosure)
    (h : ∀ statement ∈ block.statements, Tracks rule statement) :
    Grows breakCount (emitBody context block.statements)
      (emitBody context (spellBody rule block.enclosure block.isCase block.statements))
      (block.Spares rule) :=
  (grows_pieces context block hcontext h).emitBody

theorem grows_nodes {nodes : List Node} (h : ∀ node ∈ nodes, Tracks rule node)
    (hcontext : context.Within enclosure) :
    Grows (total breakCount) (nodes.map (emit context))
      (nodes.map fun node => emit context (spell rule enclosure node))
      (∀ node ∈ nodes, Spares rule enclosure node) :=
  Grows.list fun node hnode => h node hnode hcontext

theorem grows_optional {node : Option Node} (h : ∀ value ∈ node, Tracks rule value)
    (hcontext : context.Within enclosure) :
    Grows (fun fragment => fragment.elim 0 breakCount) (node.map (emit context))
      (node.map fun value => emit context (spell rule enclosure value))
      (∀ value ∈ node, Spares rule enclosure value) :=
  Grows.option fun value hvalue => h value hvalue hcontext

theorem grows_element (element : Element Node) (h : Tracks rule element.value)
    (hcontext : context.Within enclosure) :
    Grows breakCount (emitElement context element)
      (emitElement context (spellElement rule enclosure element))
      (Spares rule enclosure element.value) := by
  cases element with
  | member value =>
    exact (h hcontext).map (fun fragment => Form.link (.member fragment)) 0
      fun _ => Form.breakCount_link _
  | index value =>
    exact (h hcontext).map (fun fragment => Form.link (.index fragment)) 0
      fun _ => Form.breakCount_link _

theorem grows_declarator (context : Context) (declarator : Declarator Node)
    (h : ∀ value ∈ declarator.value, Tracks rule value) (hcontext : context.Within enclosure) :
    Grows breakCount (emitDeclarator context declarator)
      (emitDeclarator context (spellDeclarator rule enclosure declarator))
      (∀ value ∈ declarator.value, Spares rule enclosure value) := by
  obtain ⟨name, type, value, mutable⟩ := declarator
  have hcall : (value.map (spell rule enclosure)).any (Node.isCallOf type) =
      value.any (Node.isCallOf type) := by
    cases value <;> simp [isCallOf_spell]
  have hvalue := (grows_optional h hcontext).map
    (fun value' => Form.binding name type value' (value.any (Node.isCallOf type)) mutable) 0
    fun _ => Form.breakCount_binding _ _ _ _ _
  simpa [emitDeclarator, spellDeclarator, hcall, Function.comp_def] using hvalue

theorem grows_alternate (branch : Branch Node) (h : ∀ part ∈ branch.parts, Tracks rule part)
    (hcontext : context.Within enclosure) :
    Grows Form.linkCount (emitAlternate context branch)
      (emitAlternate context (spellBranch rule enclosure false branch))
      ((∀ value ∈ branch.condition, Spares rule enclosure value) ∧
        Block.Spares ⟨enclosure, false, branch.body⟩ rule) := by
  obtain ⟨condition, body⟩ := branch
  obtain ⟨hcondition, hbody⟩ := List.forall_mem_append.mp h
  have hlink : Grows Form.linkCount _ _ _ :=
    (grows_optional (fun value hvalue => hcondition value (by simpa using hvalue)) hcontext).pair
      (grows_block context.deeper ⟨enclosure, false, body⟩ hcontext hbody)
  simpa [emitAlternate, spellBranch, Function.comp_def] using hlink

/-! ### Switches -/

/-- The cases are grouped as before. -/
theorem arms_spell (isCase : Bool) (cases : List (Branch Node)) :
    Branch.arms (cases.map (spellBranch rule enclosure isCase)) =
      (Branch.arms cases).map
        (Arm.map (spell rule enclosure) (spellBody rule enclosure isCase)) := by
  rw [Branch.arms, Branch.arms, ← Arm.group_map, List.map_nil, List.map_map, List.map_map]
  congr 2
  funext branch
  obtain ⟨condition, body⟩ := branch
  cases body <;> simp [Branch.entry, spellBranch, spellBody]

/-- No break in the arm that the rule chooses leaves a switch. -/
def SparesArm (rule : Place → Bool) (arm : Arm Node (List Node)) : Prop :=
  (∀ label ∈ arm.labels, Spares rule (some .switch) label) ∧
    ∀ body ∈ arm.body?, Block.Spares ⟨some .switch, true, body⟩ rule

theorem forall_sparesArm_iff (cases : List (Branch Node)) :
    (∀ arm ∈ Branch.arms cases, SparesArm rule arm) ↔
      ∀ branch ∈ cases, (∀ label ∈ branch.condition, Spares rule (some .switch) label) ∧
        Block.Spares ⟨some .switch, true, branch.body⟩ rule := by
  have hlabels : ∀ label, (∃ arm ∈ Branch.arms cases, label ∈ arm.labels) ↔
      ∃ branch ∈ cases, branch.condition = some label := by
    intro label
    rw [← List.mem_flatMap, Branch.arms, Arm.flatMap_labels_group]
    simp [Branch.entry]
  have hbodies : ∀ body, (∃ arm ∈ Branch.arms cases, arm.body? = some body) ↔
      ∃ branch ∈ cases, branch.body ≠ [] ∧ branch.body = body := by
    intro body
    rw [← List.mem_filterMap, Branch.arms, Arm.mem_bodies_group]
    simp [Branch.entry]
  have hempty : Block.Spares ⟨some .switch, true, []⟩ rule :=
    Block.spares_iff.mpr (by simp [Block.marked, marked])
  constructor
  · intro h branch hbranch
    refine ⟨fun label hlabel => ?_, ?_⟩
    · obtain ⟨arm, harm, hmem⟩ := (hlabels label).mpr ⟨branch, hbranch, hlabel⟩
      exact (h arm harm).1 label hmem
    · by_cases hbody : branch.body = []
      · rwa [hbody]
      · obtain ⟨arm, harm, hmem⟩ := (hbodies branch.body).mpr ⟨branch, hbranch, hbody, rfl⟩
        exact (h arm harm).2 branch.body hmem
  · intro h arm harm
    refine ⟨fun label hlabel => ?_, fun body hbody => ?_⟩
    · obtain ⟨branch, hbranch, hcondition⟩ := (hlabels label).mp ⟨arm, harm, hlabel⟩
      exact (h branch hbranch).1 label hcondition
    · obtain ⟨branch, hbranch, -, rfl⟩ := (hbodies body).mp ⟨arm, harm, hbody⟩
      exact (h branch hbranch).2

theorem grows_arm (context : Context) (arm : Arm Node (List Node))
    (hlabels : ∀ label ∈ arm.labels, Tracks rule label)
    (hbody : ∀ body ∈ arm.body?, ∀ statement ∈ body, Tracks rule statement)
    (hcontext : context.Within (some .switch)) :
    Grows Form.armCount (arm.map (emit context) (emitBody context.deeper))
      ((arm.map (spell rule (some .switch)) (spellBody rule (some .switch) true)).map (emit context)
        (emitBody context.deeper))
      (SparesArm rule arm) := by
  have hbodies : Grows (fun fragment => fragment.elim 0 breakCount)
      (arm.body?.map (emitBody context.deeper))
      (arm.body?.map fun body =>
        emitBody context.deeper (spellBody rule (some .switch) true body))
      (∀ body ∈ arm.body?, Block.Spares ⟨some .switch, true, body⟩ rule) :=
    Grows.option fun body hmem =>
      grows_block context.deeper ⟨some .switch, true, body⟩ hcontext (hbody body hmem)
  cases arm with
  | cases labels body closed =>
    have harm : Grows Form.armCount _ _ _ := ((grows_nodes hlabels hcontext).pair hbodies).map
      (fun parts => Arm.cases parts.1 parts.2 closed) 0 fun _ => rfl
    simpa [Arm.map, SparesArm, Arm.labels, Arm.body?, Function.comp_def] using harm
  | default body =>
    have harm : Grows Form.armCount _ _ _ := hbodies.map Arm.default 0
      fun _ => by simp [Form.armCount, Arm.labels, Arm.body?]
    simpa [Arm.map, SparesArm, Arm.labels, Arm.body?, Function.comp_def] using harm

theorem tracks_switch {discriminant : Node} {cases : List (Branch Node)}
    (hdiscriminant : Tracks rule discriminant)
    (hcases : ∀ part ∈ cases.flatMap Branch.parts, Tracks rule part) :
    Tracks rule (.switch discriminant cases) := by
  intro context enclosure hcontext
  have hemit : ∀ discriminant cases, emit context (.switch discriminant cases) =
      Form.switchOver context.depth (emit context discriminant)
        ((Branch.arms cases).map
          (Arm.map (emit context.cases) (emitBody context.cases.deeper))) := by
    intro discriminant cases
    rw [emit, Form.switch, group_emitCases]
    rfl
  have harms := Grows.list fun arm harm => grows_arm context.cases arm
    (fun label hlabel => hcases label (Branch.label_mem_parts harm hlabel))
    (fun body hbody statement hs => hcases statement (Branch.body_mem_parts harm hbody hs)) rfl
  have hswitch := ((hdiscriminant hcontext).pair harms).map
    (fun parts => Form.switchOver context.depth parts.1 parts.2) 0
    fun _ => Form.breakCount_switchOver _ _ _
  rw [hemit, spell, hemit, spellBranches_eq_map, arms_spell, List.map_map]
  refine hswitch.congr (Iff.symm (spares_iff.trans ?_))
  rw [forall_sparesArm_iff, forall_branch_iff]
  simp only [operands, blocks, List.forall_mem_cons, List.forall_mem_map, and_assoc]

/-! ### Loops -/

theorem grows_update {update : Update Node} (h : ∀ operand ∈ update.operand?, Tracks rule operand)
    (hcontext : context.Within enclosure) :
    Grows (fun update => update.operand?.elim 0 breakCount) (update.map (emit context))
      ((update.map (spell rule enclosure)).map (emit context))
      (∀ operand ∈ update.operand?, Spares rule enclosure operand) := by
  cases update with
  | increment => exact (Grows.refl _ _).congr (by simp [Update.operand?])
  | decrement => exact (Grows.refl _ _).congr (by simp [Update.operand?])
  | step amount =>
    exact ((h amount rfl hcontext).map Update.step 0 fun _ => rfl).congr (by simp [Update.operand?])
  | assign assignment =>
    exact ((h assignment rfl hcontext).map Update.assign 0 fun _ => rfl).congr
      (by simp [Update.operand?])

theorem grows_counting {counting : Counting Node} {body : List Node}
    (hstart : Tracks rule counting.start) (hlimit : Tracks rule counting.limit)
    (hupdate : ∀ operand ∈ counting.update.operand?, Tracks rule operand)
    (hbody : ∀ statement ∈ body, Tracks rule statement) (hcontext : context.Within enclosure) :
    Grows breakCount
      (Form.countingLoop context.depth (counting.map (emit context))
        (emitBody context.outsideCase.deeper body))
      (Form.countingLoop context.depth ((counting.map (spell rule enclosure)).map (emit context))
        (emitBody context.outsideCase.deeper (spellBody rule (some .loop) false body)))
      (((Spares rule enclosure counting.start ∧ Spares rule enclosure counting.limit) ∧
          ∀ operand ∈ counting.update.operand?, Spares rule enclosure operand) ∧
        Block.Spares ⟨some .loop, false, body⟩ rule) :=
  ((((hstart hcontext).pair (hlimit hcontext)).pair (grows_update hupdate hcontext)).pair
    (grows_block context.outsideCase.deeper ⟨some .loop, false, body⟩ rfl hbody)).map
    (fun parts => Form.countingLoop context.depth
      ⟨counting.name, counting.type, parts.1.1.1, counting.comparison, parts.1.1.2, parts.1.2⟩
      parts.2) 0
    fun _ => Form.breakCount_countingLoop _ _ _

theorem tracks_loop {initial condition afterthought : Option Node} {body : List Node}
    (h : ∀ part ∈ (Node.loop initial condition afterthought body).parts,
      Tracks rule part ∧ ∀ inner ∈ part.parts, Tracks rule inner) :
    Tracks rule (.loop initial condition afterthought body) := by
  intro context enclosure hcontext
  obtain ⟨hheader, hstatements⟩ := List.forall_mem_append.mp h
  have hbody : ∀ statement ∈ body, Tracks rule statement := fun part hpart =>
    (hstatements part hpart).1
  obtain ⟨hfront, hlast⟩ := List.forall_mem_append.mp hheader
  obtain ⟨hfirst, htest⟩ := List.forall_mem_append.mp hfront
  rw [spell, spellOptional_eq_map, spellOptional_eq_map, spellOptional_eq_map]
  cases hcounting : Counting.ofLoop? initial condition afterthought with
  | some counting =>
    have hspelled := (ofLoop?_spell initial condition afterthought).trans
      (congrArg (Option.map (Counting.map (spell rule enclosure))) hcounting)
    rw [emit_counting hcounting, emit_counting hspelled]
    obtain ⟨mutable, last, rfl, rfl, -, rfl, hsteps⟩ := Counting.shape_of_ofLoop? hcounting
    have hstart : Tracks rule counting.start :=
      (hfirst _ List.mem_cons_self).2 _ (by simp [Node.parts])
    have hlimit : Tracks rule counting.limit :=
      (htest _ List.mem_cons_self).2 _ (by simp [Node.parts])
    have hupdate : ∀ operand ∈ counting.update.operand?, Tracks rule operand := by
      intro operand hoperand
      obtain ⟨htracks, hinner⟩ := hlast last List.mem_cons_self
      obtain rfl | hpart := hsteps.operand hoperand
      · exact htracks
      · exact hinner operand hpart
    refine (grows_counting hstart hlimit hupdate hbody hcontext).congr
      (Iff.symm (spares_iff.trans ?_))
    simp [operands, blocks, spares_single_binding, spares_operator_accessor,
      spares_iff_of_steps hsteps, and_assoc]
  | none =>
    have hspelled := (ofLoop?_spell initial condition afterthought).trans
      (congrArg (Option.map (Counting.map (spell rule enclosure))) hcounting)
    rw [emit_general hcounting, emit_general hspelled]
    have hparts : ∀ {part : Option Node}, (∀ node ∈ part.toList, Tracks rule node ∧
        ∀ inner ∈ node.parts, Tracks rule inner) → ∀ node ∈ part, Tracks rule node :=
      fun hpart node hnode => (hpart node (Option.mem_toList.mpr hnode)).1
    have hloop := ((((grows_optional (hparts hfirst) hcontext).pair
      (grows_optional (hparts htest) hcontext)).pair
      (grows_optional (hparts hlast) hcontext)).pair
      (grows_block context.outsideCase.deeper.deeper ⟨some .loop, false, body⟩ rfl hbody)).map
      (fun parts => Form.generalLoop context.depth parts.1.1.1 parts.1.1.2 parts.1.2 parts.2) 0
      fun _ => Form.breakCount_generalLoop _ _ _ _ _
    simp only [Option.map_map]
    refine hloop.congr (Iff.symm (spares_iff.trans ?_))
    simp only [operands, blocks, List.forall_mem_map, List.forall_mem_append, Option.mem_toList,
      List.forall_mem_singleton, Option.mem_def]

/-! ### All nodes -/

theorem tracks_leaf {node : Node} (hspell : ∀ enclosure, spell rule enclosure node = node)
    (hspares : ∀ enclosure, Spares rule enclosure node) : Tracks rule node := by
  intro context enclosure _
  rw [hspell]
  exact (Grows.refl _ _).congr (iff_of_true trivial (hspares enclosure))

theorem tracks_unary (op : UnaryOp) {operand : Node} (trailing : Bool) (h : Tracks rule operand) :
    Tracks rule (.unary op operand trailing) := by
  intro context enclosure hcontext
  have hspares : Spares rule enclosure (.unary op operand trailing) ↔
      Spares rule enclosure operand := by
    refine spares_iff.trans ?_
    simp [operands, blocks, Node.parts]
  rw [spell]
  obtain ⟨value, kind, rfl, -⟩ | ⟨hnumber, hemit⟩ := emit_unary_cases context op operand trailing
  · -- A number goes into the conversion with its sign, and it holds no statements.
    have hsame : spell rule enclosure (.number value kind) = .number value kind := by simp [spell]
    rw [hsame]
    exact (Grows.refl _ _).congr (iff_of_true trivial (hspares.mpr (spares_leaf rfl rfl)))
  · obtain ⟨value, kind, hspelled, -⟩ | ⟨-, hspelled⟩ :=
      emit_unary_cases context op (spell rule enclosure operand) trailing
    · have hkind : operand.kind = .number := by
        rw [← kind_spell rule enclosure, hspelled]
        rfl
      cases operand with
      | number value kind => exact absurd rfl (hnumber value kind)
      | _ => cases hkind
    · rw [hemit, hspelled]
      exact ((h hcontext).map (Form.unary op trailing context.initializing) 0
        fun _ => Form.breakCount_unary _ _ _ _).congr hspares.symm

theorem tracks_bindings {declarators : List (Declarator Node)}
    (h : ∀ value ∈ declarators.filterMap Declarator.value, Tracks rule value) :
    Tracks rule (.bindings declarators) := by
  intro context enclosure hcontext
  have htypes : (declarators.map (spellDeclarator rule enclosure)).map Declarator.type =
      declarators.map Declarator.type := by
    simp [spellDeclarator]
  have hparts := Grows.list fun declarator hmem =>
    grows_declarator context.initializers declarator
      (fun value hvalue => h value (List.mem_filterMap.mpr ⟨declarator, hmem, hvalue⟩)) hcontext
  have hbindings := hparts.map
    (fun parts => Form.bindings parts (declarators.map Declarator.type)) _
    fun _ => Form.breakCount_bindings _ _
  simp only [spell, emit, spellDeclarators_eq_map, emitDeclarators_eq_map, htypes, List.map_map]
  refine hbindings.congr (Iff.symm (spares_iff.trans ?_))
  simp only [operands, blocks, Node.parts, List.forall_mem_map, List.forall_mem_filterMap,
    List.not_mem_nil, false_imp_iff, implies_true, and_true, Option.mem_def]

theorem tracks_conditional {condition : Node} {body : List Node} {alternates : List (Branch Node)}
    (hcondition : Tracks rule condition) (hbody : ∀ statement ∈ body, Tracks rule statement)
    (halternates : ∀ part ∈ alternates.flatMap Branch.parts, Tracks rule part) :
    Tracks rule (.conditional condition body alternates) := by
  intro context enclosure hcontext
  have hlinks := Grows.list fun branch hbranch =>
    grows_alternate branch
      (fun part hpart => halternates part (List.mem_flatMap.mpr ⟨branch, hbranch, hpart⟩)) hcontext
  have hconditional := (((hcondition hcontext).pair
    (grows_block context.deeper ⟨enclosure, false, body⟩ hcontext hbody)).pair hlinks).map
    (fun parts => Form.conditional context.depth parts.1.1 parts.1.2 parts.2) 0
    fun _ => Form.breakCount_conditional _ _ _ _
  simp only [spell, emit, spellBranches_eq_map, emitAll_eq_map, emitAlternates_eq_map,
    ofFragments_eq_emitBody, List.map_map]
  refine hconditional.congr (Iff.symm (spares_iff.trans ?_))
  rw [forall_branch_iff]
  simp only [operands, blocks, List.forall_mem_cons, List.map_cons, List.forall_mem_map]
  grind

/-- One step for each kind of node. -/
theorem tracks (node : Node) : Tracks rule node := by
  induction node using Node.parts_induction₂ with
  | step node ih =>
    have hpart : ∀ part ∈ node.parts, Tracks rule part := fun part hmem => (ih part hmem).1
    cases node with
    | number | string | accessor | «break» | «continue» | discard | uniform | varying | function
    | unknown => exact tracks_leaf (fun _ => by simp [spell]) fun _ => spares_leaf rfl rfl
    | chain object elements =>
      intro context enclosure hcontext
      have hlinks := Grows.list fun element hmem => grows_element element
        (hpart element.value (List.mem_cons_of_mem _ (List.mem_map_of_mem hmem))) hcontext
      have hchain := ((hpart object List.mem_cons_self hcontext).pair hlinks).map
        (fun parts => Form.chain parts.1 parts.2) 0 fun _ => Form.breakCount_chain _ _
      simp only [spell, emit, spellElements_eq_map, emitElements_eq_map, List.map_map]
      refine hchain.congr (Iff.symm (spares_iff.trans ?_))
      simp [operands, blocks, Node.parts]
    | operator op left right =>
      intro context enclosure hcontext
      have hbinary := ((hpart left (by simp [Node.parts]) hcontext).pair
        (hpart right (by simp [Node.parts]) hcontext)).map
        (fun parts => Form.binary op parts.1 parts.2) 0 fun _ => Form.breakCount_binary _ _ _
      simp only [spell, emit]
      refine hbinary.congr (Iff.symm (spares_iff.trans ?_))
      simp [operands, blocks, Node.parts]
    | unary op operand trailing =>
      exact tracks_unary op trailing (hpart operand (by simp [Node.parts]))
    | ternary condition left right =>
      intro context enclosure hcontext
      have hternary := (((hpart condition (by simp [Node.parts]) hcontext).pair
        (hpart left (by simp [Node.parts]) hcontext)).pair
        (hpart right (by simp [Node.parts]) hcontext)).map
        (fun parts => Form.ternary parts.1.1 parts.1.2 parts.2) 0
        fun _ => Form.breakCount_ternary _ _ _
      simp only [spell, emit]
      refine hternary.congr (Iff.symm (spares_iff.trans ?_))
      simp [operands, blocks, Node.parts, and_assoc]
    | call name args =>
      intro context enclosure hcontext
      have hcall := (grows_nodes hpart hcontext).map (Form.call name) _
        fun _ => Form.breakCount_call _ _
      simp only [spell, emit, spellAll_eq_map, emitAll_eq_map, List.map_map]
      refine hcall.congr (Iff.symm (spares_iff.trans ?_))
      simp [operands, blocks, Node.parts]
    | «return» value =>
      intro context enclosure hcontext
      have hreturn := (grows_optional (fun node hnode => hpart node (Option.mem_toList.mpr hnode))
        hcontext).map Form.returned 0 fun _ => Form.breakCount_returned _
      simp only [spell, emit, spellOptional_eq_map, emitOptional_eq_map, Option.map_map]
      refine hreturn.congr (Iff.symm (spares_iff.trans ?_))
      simp [operands, blocks, Node.parts]
    | bindings declarators => exact tracks_bindings hpart
    | conditional condition body alternates =>
      obtain ⟨hcondition, hrest⟩ := List.forall_mem_cons.mp hpart
      obtain ⟨hbody, halternates⟩ := List.forall_mem_append.mp hrest
      exact tracks_conditional hcondition hbody halternates
    | switch discriminant cases =>
      obtain ⟨hdiscriminant, hcases⟩ := List.forall_mem_cons.mp hpart
      exact tracks_switch hdiscriminant hcases
    | loop initial condition afterthought body => exact tracks_loop ih

end Nodes

end ShaderScript
