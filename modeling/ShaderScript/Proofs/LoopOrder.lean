import ShaderScript.Emit.Document
import ShaderScript.Proofs.Emission

/-!
# The order in which a loop runs

A loop that does not count becomes a block: its initial part, and a callback that the library runs
while a condition holds. The afterthought ends the callback. Here the parts of a loop may do
anything to a state, and the parts that the loop and its block run are listed in order. A break
leaves both in the same way, but a continue ends the callback, and so the block skips an
afterthought that the loop runs. In all other runs the order is kept.
-/

namespace ShaderScript

/-! ## Loops -/

/-- The parts of a loop. -/
inductive LoopPart where
  | initial
  | condition
  | body
  | afterthought
deriving DecidableEq

/-- How a run of the body ends. -/
inductive Ending where
  | finished
  /-- By a continue of the loop. -/
  | continued
  /-- By a break of the loop. -/
  | broken
deriving DecidableEq

/-- What the parts of a loop do to a state. -/
structure Behaviour (σ : Type) where
  initial : σ → σ
  condition : σ → σ × Bool
  body : σ → σ × Ending
  afterthought : σ → σ

namespace Behaviour

variable {σ : Type} (behaviour : Behaviour σ)

/-- A condition that is absent holds. -/
def test (present : Bool) (state : σ) : σ × Bool :=
  if present then behaviour.condition state else (state, true)

/-- What a part does where it is run as a statement. -/
def statement : LoopPart → σ → σ × Ending
  | .initial, state => (behaviour.initial state, .finished)
  | .condition, state => ((behaviour.condition state).1, .finished)
  | .body, state => behaviour.body state
  | .afterthought, state => (behaviour.afterthought state, .finished)

end Behaviour

/-- A part that may be absent. -/
def LoopPart.given (part : LoopPart) (present : Bool) : List LoopPart :=
  if present then [part] else []

/-- Which parts a loop has besides its body. -/
structure LoopHeader where
  initial : Bool
  condition : Bool
  afterthought : Bool

namespace LoopHeader

variable {σ : Type} (header : LoopHeader) (behaviour : Behaviour σ)

def ofParts (initial condition afterthought : Option Node) : LoopHeader :=
  ⟨initial.isSome, condition.isSome, afterthought.isSome⟩

/-- The state after the initial part. -/
def start (state : σ) : σ :=
  if header.initial then behaviour.initial state else state

/-- The state after the afterthought. -/
def advance (state : σ) : σ :=
  if header.afterthought then behaviour.afterthought state else state

/-- The parts that are run in so many rounds. The afterthought follows every run of the body that is
not broken. -/
def rounds : Nat → σ → List LoopPart
  | 0, _ => []
  | n + 1, state =>
    let (tested, holds) := behaviour.test header.condition state
    LoopPart.condition.given header.condition ++
      if holds then
        .body ::
          match behaviour.body tested with
          | (_, .broken) => []
          | (left, _) =>
            LoopPart.afterthought.given header.afterthought ++
              rounds n (header.advance behaviour left)
      else []

/-- The parts that the loop runs in so many rounds. -/
def run (n : Nat) (state : σ) : List LoopPart :=
  LoopPart.initial.given header.initial ++ header.rounds behaviour n (header.start behaviour state)

/-- A run of the body is continued within so many rounds. -/
def continuedWithin : Nat → σ → Bool
  | 0, _ => false
  | n + 1, state =>
    let (tested, holds) := behaviour.test header.condition state
    holds &&
      match behaviour.body tested with
      | (_, .broken) => false
      | (_, .continued) => true
      | (left, .finished) => continuedWithin n (header.advance behaviour left)

end LoopHeader

/-! ## Blocks -/

/-- A block with a callback that runs in a loop of the library. -/
structure LoopBlock where
  /-- The statements before the loop. -/
  setup : List LoopPart
  /-- The callback runs while the condition holds, or else forever. -/
  tested : Bool
  /-- The statements of the callback. -/
  callback : List LoopPart

namespace LoopBlock

variable {σ : Type} (behaviour : Behaviour σ) (block : LoopBlock)

/-- Runs statements until one does not finish: the parts that are run, the state and the ending. -/
def runStatements : List LoopPart → σ → List LoopPart × σ × Ending
  | [], state => ([], state, .finished)
  | part :: rest, state =>
    match behaviour.statement part state with
    | (left, .finished) =>
      let (parts, last, ending) := runStatements rest left
      (part :: parts, last, ending)
    | (left, ending) => ([part], left, ending)

/-- The parts that are run in so many rounds. Only a break ends the loop from inside. -/
def rounds : Nat → σ → List LoopPart
  | 0, _ => []
  | n + 1, state =>
    let (tested, holds) := behaviour.test block.tested state
    LoopPart.condition.given block.tested ++
      if holds then
        match runStatements behaviour block.callback tested with
        | (parts, _, .broken) => parts
        | (parts, left, _) => parts ++ rounds n left
      else []

/-- The parts that the block runs in so many rounds. -/
def run (n : Nat) (state : σ) : List LoopPart :=
  let (parts, ready, _) := runStatements behaviour block.setup state
  parts ++ block.rounds behaviour n ready

open Script

/-- The text of the block, from the texts of the parts. -/
def text (depth : Nat) (texts : LoopPart → String) : String :=
  Script.block depth
    (String.join (block.setup.map fun part => texts part ++ "\n\n") ++ tabs (depth + 1) ++
      apply "Loop" [if block.tested then texts .condition else "true",
        thunk (depth + 1) ("\n\n".intercalate (block.callback.map texts))])

end LoopBlock

/-- The block that a loop becomes. -/
def LoopHeader.lowered (header : LoopHeader) : LoopBlock where
  setup := LoopPart.initial.given header.initial
  tested := header.condition
  callback := .body :: LoopPart.afterthought.given header.afterthought

/-- The text of a part of a loop in its block. -/
def LoopPart.text (context : Context) (initial condition afterthought : Option Node)
    (body : List Node) : LoopPart → String
  | .initial => Script.tabs (context.depth + 1) ++ written initial ++ ";"
  | .condition => written condition
  | .body => (emitBody context.outsideCase.deeper.deeper body).text
  | .afterthought => Script.tabs (context.depth + 2) ++ written afterthought ++ ";"
where
  written (part : Option Node) : String := (part.map fun node => (emit context node).text).getD ""

theorem text_emit_general {initial condition afterthought : Option Node}
    (h : Counting.ofLoop? initial condition afterthought = none) (context : Context)
    (body : List Node) :
    (emit context (.loop initial condition afterthought body)).text =
      (LoopHeader.ofParts initial condition afterthought).lowered.text context.depth
        (LoopPart.text context initial condition afterthought body) := by
  rw [emit_general h]
  unfold Form.generalLoop LoopBlock.text
  cases initial <;> cases condition <;> cases afterthought <;>
    simp [LoopHeader.ofParts, LoopHeader.lowered, LoopPart.given, LoopPart.text,
      LoopPart.text.written, String.intercalate_cons_cons, String.append_assoc]

/-! ## The two orders -/

section Order

variable {σ : Type} (header : LoopHeader) (behaviour : Behaviour σ)

theorem runStatements_given (part : LoopPart) (present : Bool) (state : σ)
    (h : (behaviour.statement part state).2 = .finished) :
    LoopBlock.runStatements behaviour (part.given present) state =
      (part.given present, if present then (behaviour.statement part state).1 else state,
        .finished) := by
  cases present with
  | false => rfl
  | true =>
    rcases hstep : behaviour.statement part state with ⟨left, ending⟩
    rw [hstep] at h
    subst h
    simp [LoopPart.given, LoopBlock.runStatements, hstep]

/-- A run of the callback: the afterthought is run only if the body finishes. -/
theorem runStatements_callback (state : σ) :
    LoopBlock.runStatements behaviour header.lowered.callback state =
      match behaviour.body state with
      | (left, .finished) =>
        (.body :: LoopPart.afterthought.given header.afterthought, header.advance behaviour left,
          .finished)
      | (left, ending) => ([.body], left, ending) := by
  rw [LoopHeader.lowered, LoopBlock.runStatements]
  show (match behaviour.body state with | (left, .finished) => _ | (left, ending) => _) = _
  obtain ⟨left, ending⟩ := behaviour.body state
  cases ending with
  | finished =>
    simp only
    rw [runStatements_given behaviour .afterthought header.afterthought left rfl]
    rfl
  | continued => rfl
  | broken => rfl

/-- One round of the block. It differs from a round of the loop where the body is continued. -/
theorem rounds_lowered_succ (n : Nat) (state : σ) :
    header.lowered.rounds behaviour (n + 1) state =
      let (tested, holds) := behaviour.test header.condition state
      LoopPart.condition.given header.condition ++
        if holds then
          .body ::
            match behaviour.body tested with
            | (_, .broken) => []
            | (left, .continued) => header.lowered.rounds behaviour n left
            | (left, .finished) =>
              LoopPart.afterthought.given header.afterthought ++
                header.lowered.rounds behaviour n (header.advance behaviour left)
        else [] := by
  have htested : header.lowered.tested = header.condition := rfl
  rw [LoopBlock.rounds, htested]
  rcases behaviour.test header.condition state with ⟨tested, holds⟩
  cases holds with
  | false => rfl
  | true =>
    simp only [if_true, runStatements_callback]
    rcases behaviour.body tested with ⟨left, ending⟩
    cases ending <;> rfl

/-- No round of the block starts with the afterthought. -/
theorem head?_rounds_lowered (n : Nat) (state : σ) :
    (header.lowered.rounds behaviour n state).head? ≠ some .afterthought := by
  cases n with
  | zero => nofun
  | succ n =>
    rw [rounds_lowered_succ]
    obtain ⟨tested, holds⟩ := behaviour.test header.condition state
    cases header.condition <;> cases holds <;> simp [LoopPart.given]

/-- The block runs the parts in the order of the loop as long as there is no afterthought, or no run
of the body is continued. -/
theorem rounds_lowered_eq_iff (n : Nat) (state : σ) :
    header.lowered.rounds behaviour n state = header.rounds behaviour n state ↔
      header.afterthought = false ∨ header.continuedWithin behaviour n state = false := by
  induction n generalizing state with
  | zero => simp [LoopBlock.rounds, LoopHeader.rounds, LoopHeader.continuedWithin]
  | succ n ih =>
    rw [rounds_lowered_succ, LoopHeader.rounds, LoopHeader.continuedWithin]
    obtain ⟨tested, holds⟩ := behaviour.test header.condition state
    cases holds with
    | false => simp
    | true =>
      simp only [if_true, List.append_cancel_left_eq, List.cons.injEq, true_and, Bool.true_and]
      obtain ⟨left, ending⟩ := behaviour.body tested
      cases ending with
      | broken => simp
      | finished => simpa using ih (header.advance behaviour left)
      | continued =>
        cases hafter : header.afterthought with
        | false =>
          have hadvance : header.advance behaviour left = left := by
            rw [LoopHeader.advance, hafter, if_neg Bool.false_ne_true]
          simpa [LoopPart.given, hadvance, hafter] using ih left
        | true =>
          -- the loop goes on with the afterthought, and the block cannot
          have hhead := head?_rounds_lowered header behaviour n left
          simp only [LoopPart.given, if_true, List.cons_append, List.nil_append, Bool.true_eq_false,
            or_self, iff_false]
          intro heq
          rw [heq] at hhead
          exact hhead rfl

theorem run_lowered_eq_iff (n : Nat) (state : σ) :
    header.lowered.run behaviour n state = header.run behaviour n state ↔
      header.afterthought = false ∨
        header.continuedWithin behaviour n (header.start behaviour state) = false := by
  have hsetup := runStatements_given behaviour .initial header.initial state rfl
  rw [LoopBlock.run, LoopHeader.run]
  simp only [LoopHeader.lowered] at hsetup ⊢
  rw [hsetup, List.append_cancel_left_eq]
  exact rounds_lowered_eq_iff header behaviour n (header.start behaviour state)

variable {header behaviour}

/-- A body that is never continued is not continued in any round. -/
theorem not_continuedWithin (h : ∀ state, (behaviour.body state).2 ≠ .continued) (n : Nat)
    (state : σ) : header.continuedWithin behaviour n state = false := by
  induction n generalizing state with
  | zero => rfl
  | succ n ih =>
    rw [LoopHeader.continuedWithin]
    obtain ⟨tested, holds⟩ := behaviour.test header.condition state
    rcases hbody : behaviour.body tested with ⟨left, ending⟩
    cases ending with
    | finished => simp [hbody, ih]
    | continued => exact absurd (by rw [hbody]) (h tested)
    | broken => simp [hbody]

end Order

/-! ## Continues in the tree -/

/-- The node has a continue that belongs to the loop around it: one that is not inside a loop or a
function of its own. -/
inductive Node.Continues : Node → Prop
  | here : Continues .continue
  | inside {node part : Node} (hpart : part ∈ node.parts) (hloop : node.kind ≠ .loop)
    (hfunction : node.kind ≠ .function) (h : Continues part) : Continues node

namespace Node

/-- The continues inside a loop are its own. -/
theorem not_continues_loop {initial condition afterthought : Option Node} {body : List Node} :
    ¬ (Node.loop initial condition afterthought body).Continues := by
  intro h
  cases h with
  | inside _ hloop => exact hloop rfl

theorem not_continues_of_parts {node : Node} (hparts : node.parts = []) (hne : node ≠ .continue) :
    ¬ node.Continues := by
  intro h
  cases h with
  | here => exact hne rfl
  | inside hpart => simp [hparts] at hpart

end Node

/-- The behaviour is one of a loop with this body: only a continue in the body can continue it. -/
def Behaviour.Fits {σ : Type} (behaviour : Behaviour σ) (body : List Node) : Prop :=
  ∀ state, (behaviour.body state).2 = .continued → ∃ node ∈ body, node.Continues

/-- Every run of the body is continued. -/
def Behaviour.continuing : Behaviour Unit where
  initial := id
  condition state := (state, true)
  body state := (state, .continued)
  afterthought := id

theorem continuedWithin_continuing (header : LoopHeader) :
    header.continuedWithin .continuing 1 () = true := by
  obtain ⟨initial, condition, afterthought⟩ := header
  cases condition <;> rfl

/-- A loop that does not count becomes a block. Whatever the parts of the loop do, the block runs
them in the order of the loop exactly if the loop has no afterthought or no run of its body is ended
by a continue. So the order is kept in every run exactly if the loop has no afterthought or its body
has no continue. -/
theorem general_loop_order_iff {initial condition afterthought : Option Node}
    (h : Counting.ofLoop? initial condition afterthought = none) (body : List Node) :
    let header := LoopHeader.ofParts initial condition afterthought
    (∀ context, (emit context (.loop initial condition afterthought body)).text =
      header.lowered.text context.depth
        (LoopPart.text context initial condition afterthought body)) ∧
    (∀ (σ : Type) (behaviour : Behaviour σ) (n : Nat) (state : σ),
      header.lowered.run behaviour n state = header.run behaviour n state ↔
        afterthought = none ∨
          header.continuedWithin behaviour n (header.start behaviour state) = false) ∧
    ((∀ (σ : Type) (behaviour : Behaviour σ), behaviour.Fits body → ∀ (n : Nat) (state : σ),
      header.lowered.run behaviour n state = header.run behaviour n state) ↔
        afterthought = none ∨ ¬ ∃ node ∈ body, node.Continues) := by
  intro header
  have hnone : header.afterthought = false ↔ afterthought = none := by
    simp [header, LoopHeader.ofParts]
  have hrun {σ : Type} (behaviour : Behaviour σ) (n : Nat) (state : σ) :
      header.lowered.run behaviour n state = header.run behaviour n state ↔
        afterthought = none ∨
          header.continuedWithin behaviour n (header.start behaviour state) = false := by
    rw [run_lowered_eq_iff, hnone]
  refine ⟨fun context => text_emit_general h context body, fun σ => hrun, ?_, ?_⟩
  · intro hall
    by_cases hbody : ∃ node ∈ body, node.Continues
    · have heq := hall Unit .continuing (fun _ _ => hbody) 1 ()
      refine .inl (((hrun .continuing 1 ()).mp heq).resolve_right fun hfalse => ?_)
      exact Bool.noConfusion ((continuedWithin_continuing header).symm.trans hfalse)
    · exact .inr hbody
  · intro hcase σ behaviour hfits n state
    refine (hrun behaviour n state).mpr (hcase.imp_right fun hbody => ?_)
    exact not_continuedWithin (fun state hstate => hbody (hfits state hstate)) n _

/-- A loop with a break, and with a continue of a loop inside it, is run in order. -/
theorem general_loop_order_nested :
    let inner : Node := .loop none (some (.accessor "busy")) none [.continue]
    let initial : Option Node := some (.bindings [⟨"t", "float", some (.number "0." .float), true⟩])
    let condition : Option Node := some (.operator .lessThan (.accessor "s") (.accessor "limit"))
    let afterthought : Option Node := some (.operator .addAssign (.accessor "t") (.accessor "dt"))
    let body : List Node := [inner, .conditional (.accessor "hit") [.break] []]
    let header := LoopHeader.ofParts initial condition afterthought
    Counting.ofLoop? initial condition afterthought = none ∧
      ∀ (σ : Type) (behaviour : Behaviour σ), behaviour.Fits body → ∀ (n : Nat) (state : σ),
        header.lowered.run behaviour n state = header.run behaviour n state := by
  intro inner initial condition afterthought body header
  have hgeneral : Counting.ofLoop? initial condition afterthought = none := by decide +kernel
  have hbody : ¬ ∃ node ∈ body, node.Continues := by
    rintro ⟨node, hnode, hcontinues⟩
    have hcases : node = inner ∨ node = .conditional (.accessor "hit") [.break] [] := by
      simpa [body] using hnode
    rcases hcases with rfl | rfl
    · exact Node.not_continues_loop hcontinues
    · cases hcontinues with
      | inside hpart _ _ hinner =>
        rcases hpart with _ | ⟨_, _ | ⟨_, hnil⟩⟩
        · exact absurd hinner (Node.not_continues_of_parts rfl nofun)
        · exact absurd hinner (Node.not_continues_of_parts rfl nofun)
        · cases hnil
  obtain ⟨-, -, hall⟩ := general_loop_order_iff hgeneral body
  exact ⟨hgeneral, hall.mpr (.inr hbody)⟩

/-- A body that is continued once, in the first of two rounds. -/
def Behaviour.skipping : Behaviour Nat where
  initial := id
  condition state := (state + 1, state == 0)
  body state := (state, .continued)
  afterthought := id

/-- The callback of a continued body ends before the afterthought. -/
theorem afterthought_skipped :
    let condition : Option Node := some (.accessor "c")
    let afterthought : Option Node := some (.unary .increment (.accessor "i") true)
    let body : List Node := [.conditional (.accessor "x") [.continue] [], .call "foo" []]
    let header := LoopHeader.ofParts none condition afterthought
    Counting.ofLoop? none condition afterthought = none ∧ Behaviour.skipping.Fits body ∧
      (emit (Section.context .default) (.loop none condition afterthought body)).text =
        "\x7b\n\n\tLoop( c, () => \x7b\n\n" ++
          "\t\tIf( x, () => \x7b\n\n\t\t\tContinue();\n\n\t\t\x7d );\n\n\t\tfoo();\n\n" ++
          "\t\ti.incrementBefore();\n\n\t\x7d )\n\n\x7d" ∧
      header.run .skipping 2 0 = [.condition, .body, .afterthought, .condition] ∧
      header.lowered.run .skipping 2 0 = [.condition, .body, .condition] := by
  intro condition afterthought body header
  have hfits : Behaviour.skipping.Fits body :=
    fun _ _ => ⟨_, List.mem_cons_self, .inside (by simp [Node.parts]) nofun nofun .here⟩
  exact ⟨rfl, hfits, by decide +kernel, rfl, rfl⟩

end ShaderScript
