import ShaderScript.Emit.Document
import ShaderScript.Proofs.CounterLoops

/-!
# Reading a counting loop back

The text of a counting loop is read back with the counter, type, bounds and comparison of the loop.
The update does not always come back: a bare step is an operand that the library adds, and that it
evaluates outside the callback. So a step that is subtracted, or that mentions the counter, is read
as another update, and a loop that adds a plain step has the same text as the loop that subtracts
it.
-/

namespace ShaderScript

/-! ## Loops of a program -/

namespace Node

/-- The afterthought changes the counter by a name or a number, and so is written as a bare step. -/
def stepsPlainly : Node → Bool
  | .operator op _ amount => Counting.isPlainStep op amount
  | _ => false

/-- A string in the node starts with the name. -/
def Mentions (name : String) (node : Node) : Prop :=
  ∃ text ∈ node.strings, Scope.rootName text = name

end Node

/-- What an afterthought does to the counter. -/
def CounterUpdate.ofAfterthought (context : Context) : Node → CounterUpdate
  | .unary .decrement _ _ => .decrement
  | .operator op _ amount => .assign op (emit context amount).text
  | _ => .increment

/-- Adding a step instead of subtracting it, and the other way round. -/
def CounterUpdate.mirrored : CounterUpdate → CounterUpdate
  | .assign .addAssign amount => .assign .subAssign amount
  | .assign .subAssign amount => .assign .addAssign amount
  | update => update

/-- What is left of an assignment in a bare step. -/
def CounterUpdate.bare : CounterUpdate → CounterUpdate
  | .assign _ amount => .add amount
  | update => update

namespace CounterLoop

/-- The loop that counts as told, with this afterthought. -/
def ofCounting (context : Context) (counting : Counting Node) (last : Node) : CounterLoop where
  name := counting.name
  type := counting.type
  start := (emit context counting.start).text
  comparison := counting.comparison
  limit := (emit context counting.limit).text
  update := .ofAfterthought context last

/-- The loop with a step of the other sign. -/
def mirrored (loop : CounterLoop) : CounterLoop :=
  { loop with update := loop.update.mirrored }

/-- The loop with a bare step. -/
def bare (loop : CounterLoop) : CounterLoop :=
  { loop with update := loop.update.bare }

/-- The loop that is written for a counting loop. -/
def written (context : Context) (counting : Counting Node) (last : Node) : CounterLoop :=
  if last.stepsPlainly then (ofCounting context counting last).bare
  else ofCounting context counting last

end CounterLoop

/-- The text of an operator needs only the texts of its operands. -/
theorem text_binary_plain (op : BinaryOp) (left right : Fragment) :
    (Form.binary op left (.plain right.text)).text = (Form.binary op left right).text := by
  by_cases hleft : startsLiteral left.text <;> by_cases hright : startsLiteral right.text <;>
    by_cases hop : op = .member <;> simp [Form.binary, Fragment.plain, hleft, hright, hop]

section Loops

variable {context : Context} {initial condition : Option Node} {last : Node}
  {counting : Counting Node}

theorem text_emit_counting (h : Counting.ofLoop? initial condition (some last) = some counting)
    (body : List Node) :
    (emit context (.loop initial condition (some last) body)).text =
      (CounterLoop.written context counting last).toCounting.text context.depth
        (emitBody context.outsideCase.deeper body).text := by
  obtain ⟨-, afterthought, -, -, -, hlast, hsteps⟩ := Counting.shape_of_ofLoop? h
  obtain rfl : last = afterthought := Option.some.inj hlast
  rw [emit_counting h, Form.countingLoop]
  obtain ⟨name, type, start, comparison, limit, update⟩ := counting
  simp only at hsteps
  cases hsteps with
  | increment | decrement => rfl
  | step hplain =>
    simp [CounterLoop.written, Node.stepsPlainly, hplain, CounterLoop.ofCounting,
      CounterUpdate.ofAfterthought, CounterLoop.bare, CounterUpdate.bare, CounterLoop.toCounting,
      CounterUpdate.toUpdate, Counting.map, Update.map]
  | @assign op amount hassign hplain =>
    have hcode : (emit context (.operator op (.accessor name) amount)).text =
        assignmentText name op (emit context amount).text := by
      rw [emit, emit, assignmentText, text_binary_plain]
    simp [CounterLoop.written, Node.stepsPlainly, hplain, CounterLoop.ofCounting,
      CounterUpdate.ofAfterthought, CounterLoop.toCounting,
      CounterUpdate.toUpdate, Counting.map, Update.map, hcode]

/-- The start of a plain name or number is no bracket and no quote. -/
theorem head_emit_plainStep {op : BinaryOp} {amount : Node} (h : Counting.isPlainStep op amount)
    (hplain : amount.Plain) :
    ∀ c ∈ (emit context amount).text.toList.head?, c ≠ '(' ∧ c ≠ '\'' := by
  have hown (text : String) (htext : PlainText text) :
      ∀ c ∈ (Script.orUnknown text).toList.head?, c ≠ '(' ∧ c ≠ '\'' := by
    intro c hc
    unfold Script.orUnknown at hc
    split at hc
    · obtain rfl : '/' = c := Option.some.inj hc
      decide
    · have hmem := List.mem_of_mem_head? hc
      constructor
      · rintro rfl
        exact htext '(' (by decide) hmem
      · rintro rfl
        exact htext '\'' (by decide) hmem
  cases amount with
  | accessor property =>
    rw [emit]
    exact hown property (hplain.own List.mem_cons_self)
  | number value kind =>
    rw [emit, Form.number]
    cases kind with
    | float => exact hown value (hplain.own List.mem_cons_self)
    | int | uint =>
      intro c hc
      simp [NumberKind.isNarrow, NumberKind.spelling, Script.apply] at hc
      subst hc
      decide
  | _ => simp [Counting.isPlainStep] at h

/-- The header of a counting loop without brackets, colons and quotes in its strings. -/
theorem plain_counting (h : Counting.ofLoop? initial condition (some last) = some counting)
    (hplain : (Node.loop initial condition (some last) []).Plain) :
    PlainText counting.name ∧ PlainText counting.type ∧ counting.start.Plain ∧
      counting.limit.Plain ∧ last.Plain := by
  obtain ⟨mutable, afterthought, rfl, rfl, -, hlast, -⟩ := Counting.shape_of_ofLoop? h
  obtain rfl : last = afterthought := Option.some.inj hlast
  have hfirst :
      (Node.bindings [⟨counting.name, counting.type, some counting.start, mutable⟩]).Plain :=
    hplain.part (by simp [Node.parts])
  have htest :
      (Node.operator counting.comparison (.accessor counting.name) counting.limit).Plain :=
    hplain.part (by simp [Node.parts])
  exact ⟨hfirst.own (by simp [Node.ownStrings]), hfirst.own (by simp [Node.ownStrings]),
    hfirst.part (by simp [Node.parts]), htest.part (by simp [Node.parts]),
    hplain.part (by simp [Node.parts])⟩

theorem readable_written (h : Counting.ofLoop? initial condition (some last) = some counting)
    (hplain : last.Plain) : (CounterLoop.written context counting last).update.Readable := by
  obtain ⟨-, afterthought, -, -, -, hlast, hsteps⟩ := Counting.shape_of_ofLoop? h
  obtain rfl : last = afterthought := Option.some.inj hlast
  cases hupdate : counting.update with
  | increment | decrement =>
    rw [hupdate] at hsteps
    cases hsteps
    trivial
  | step amount =>
    rw [hupdate] at hsteps
    cases hsteps with
    | @step op _ hstep =>
      have hamount : amount.Plain := hplain.part (by simp [Node.parts])
      have hread : (CounterLoop.written context counting
          (.operator op (.accessor counting.name) amount)).update =
            .add (emit context amount).text := by
        simp [CounterLoop.written, Node.stepsPlainly, hstep, CounterLoop.ofCounting,
          CounterUpdate.ofAfterthought, CounterLoop.bare, CounterUpdate.bare]
      rw [hread]
      exact ⟨uncut_emit hamount context, head_emit_plainStep hstep hamount⟩
  | assign assignment =>
    rw [hupdate] at hsteps
    cases hsteps with
    | @assign op amount hassign hstep =>
      have hamount : amount.Plain := hplain.part (by simp [Node.parts])
      have hread : (CounterLoop.written context counting
          (.operator op (.accessor counting.name) amount)).update =
            .assign op (emit context amount).text := by
        simp [CounterLoop.written, Node.stepsPlainly, hstep, CounterLoop.ofCounting,
          CounterUpdate.ofAfterthought]
      have hop : op ≠ .member := by
        rintro rfl
        cases hassign
      rw [hread]
      exact ⟨hop, uncut_emit hamount context, hamount.balanced context⟩

theorem readCounting?_emit (h : Counting.ofLoop? initial condition (some last) = some counting)
    (hplain : (Node.loop initial condition (some last) []).Plain) (context : Context)
    (body : List Node) :
    readCounting? (emit context (.loop initial condition (some last) body)).text =
      some (CounterLoop.written context counting last) := by
  obtain ⟨hname, htype, hstart, hlimit, hlast⟩ := plain_counting h hplain
  have hfields : (CounterLoop.written context counting last).name = counting.name ∧
      (CounterLoop.written context counting last).type = counting.type ∧
      (CounterLoop.written context counting last).start = (emit context counting.start).text ∧
      (CounterLoop.written context counting last).limit = (emit context counting.limit).text := by
    unfold CounterLoop.written
    split <;> exact ⟨rfl, rfl, rfl, rfl⟩
  obtain ⟨hn, ht, hs, hl⟩ := hfields
  rw [text_emit_counting h]
  refine CounterLoop.readCounting?_text ?_ ?_ ?_ ?_ (readable_written h hlast) _ _
  · rwa [hn]
  · rwa [ht]
  · rw [hs]
    exact uncut_emit hstart context
  · rw [hl]
    exact uncut_emit hlimit context

end Loops

/-! ## What updates do -/

/-- A meaning of updates. An operand may have one value in the callback, where the counter is bound,
and another one outside. -/
structure CounterMeaning (V : Type) where
  increment : V → V
  decrement : V → V
  combine : BinaryOp → V → V → V
  inside : V → String → V
  outside : String → V

namespace CounterMeaning

variable {V : Type} (meaning : CounterMeaning V)

/-- The new value of the counter. -/
def effect : CounterUpdate → V → V
  | .increment, value => meaning.increment value
  | .decrement, value => meaning.decrement value
  | .assign op amount, value => meaning.combine op value (meaning.inside value amount)
  | .add amount, value => meaning.combine .addAssign value (meaning.outside amount)

/-- An operand that does not mention the counter has the same value inside and outside. -/
def Respects (context : Context) (counter : String) (last : Node) : Prop :=
  ∀ op target amount, last = .operator op target amount → ¬ amount.Mentions counter →
    ∀ value, meaning.inside value (emit context amount).text =
      meaning.outside (emit context amount).text

/-- A meaning that only shows which operands are added. -/
def additions : CounterMeaning Bool where
  increment := id
  decrement := id
  combine op _ _ := op == .addAssign
  inside _ _ := false
  outside _ := false

/-- A meaning that only shows where operands are evaluated. -/
def places : CounterMeaning Bool where
  increment := id
  decrement := id
  combine _ _ amount := amount
  inside _ _ := true
  outside _ := false

end CounterMeaning

section Meaning

variable {context : Context} {counter : String} {op : BinaryOp} {target amount : Node}

/-- A bare step does what the assignment does exactly if it is added and does not mention the
counter. -/
theorem effect_bare_iff (h : Counting.isPlainStep op amount) :
    (∀ (V : Type) (meaning : CounterMeaning V),
      meaning.Respects context counter (.operator op target amount) →
        meaning.effect (.add (emit context amount).text) =
          meaning.effect (.assign op (emit context amount).text)) ↔
      op = .addAssign ∧ ¬ amount.Mentions counter := by
  constructor
  · intro hall
    constructor
    · have heffect : (true : Bool) = (op == .addAssign) :=
        congrFun (hall Bool .additions fun _ _ _ _ _ _ => rfl) true
      exact beq_iff_eq.mp heffect.symm
    · intro hmentions
      have hrespects :
          CounterMeaning.places.Respects context counter (.operator op target amount) := by
        intro op' target' amount' heq hnot
        cases heq
        exact absurd hmentions hnot
      have heffect := congrFun (hall Bool .places hrespects) true
      cases heffect
  · rintro ⟨rfl, hmentions⟩ V meaning hrespects
    funext value
    show meaning.combine .addAssign value (meaning.outside _) =
      meaning.combine .addAssign value (meaning.inside value _)
    rw [hrespects _ _ _ rfl hmentions value]

end Meaning

/-! ## Loops with the same text -/

section SameText

variable {context : Context} {last last' : Node} {counting counting' : Counting Node}

/-- The update adds or subtracts an operand. -/
def CounterUpdate.IsSigned (update : CounterUpdate) : Prop :=
  ∃ amount, update = .assign .addAssign amount ∨ update = .assign .subAssign amount

theorem isSigned_of_stepsPlainly (h : last.stepsPlainly) :
    (CounterUpdate.ofAfterthought context last).IsSigned := by
  cases last with
  | operator op target amount =>
    simp only [Node.stepsPlainly, Counting.isPlainStep, Bool.and_eq_true, Bool.or_eq_true,
      beq_iff_eq] at h
    refine ⟨(emit context amount).text, ?_⟩
    rcases h.1 with rfl | rfl
    · exact .inl rfl
    · exact .inr rfl
  | _ => cases h

/-- A bare step shows the operand, but not the sign. -/
theorem CounterLoop.bare_eq_iff {loop other : CounterLoop} (h : loop.update.IsSigned)
    (hother : other.update.IsSigned) :
    loop.bare = other.bare ↔ other = loop ∨ other = loop.mirrored := by
  obtain ⟨name, type, start, comparison, limit, update⟩ := loop
  obtain ⟨name', type', start', comparison', limit', update'⟩ := other
  obtain ⟨amount, hupdate⟩ := h
  obtain ⟨amount', hupdate'⟩ := hother
  simp only at hupdate hupdate'
  rcases hupdate with rfl | rfl <;> rcases hupdate' with rfl | rfl <;>
    simp [bare, mirrored, CounterUpdate.bare, CounterUpdate.mirrored, eq_comm]

theorem bare_ne_ofAfterthought (h : last.stepsPlainly) :
    (CounterLoop.ofCounting context counting last).bare ≠
      CounterLoop.ofCounting context counting' last' := by
  intro heq
  have hupdate : (CounterUpdate.ofAfterthought context last).bare =
      .ofAfterthought context last' := congrArg CounterLoop.update heq
  have hsigned : (CounterUpdate.ofAfterthought context last).IsSigned := isSigned_of_stepsPlainly h
  have hbare : ∃ amount, (CounterUpdate.ofAfterthought context last).bare = .add amount := by
    obtain ⟨amount, hadd | hsub⟩ := hsigned
    · exact ⟨amount, by rw [hadd, CounterUpdate.bare]⟩
    · exact ⟨amount, by rw [hsub, CounterUpdate.bare]⟩
  obtain ⟨amount, hamount⟩ := hbare
  rw [hamount] at hupdate
  unfold CounterUpdate.ofAfterthought at hupdate
  split at hupdate <;> cases hupdate

/-- Loops are written alike if they are the same, or differ in the sign of a plain step. -/
theorem written_eq_iff :
    CounterLoop.written context counting last = CounterLoop.written context counting' last' ↔
      last.stepsPlainly = last'.stepsPlainly ∧
        (CounterLoop.ofCounting context counting' last' =
            CounterLoop.ofCounting context counting last ∨
          last.stepsPlainly ∧ CounterLoop.ofCounting context counting' last' =
            (CounterLoop.ofCounting context counting last).mirrored) := by
  unfold CounterLoop.written
  cases hplain : last.stepsPlainly <;> cases hplain' : last'.stepsPlainly
  · simp [eq_comm]
  · simpa using (bare_ne_ofAfterthought hplain').symm
  · simpa using bare_ne_ofAfterthought hplain
  · simpa using CounterLoop.bare_eq_iff (isSigned_of_stepsPlainly hplain)
      (isSigned_of_stepsPlainly hplain')

end SameText

/-- The text of a counting loop without brackets, colons and quotes in the strings of its header is
read back with the counter, type, bounds and comparison of the loop. The update that is read does
what the afterthought does exactly if that is no plain step, or one that is added and does not
mention the counter. Over the same body, two loops have the same text exactly if they are the same,
or differ in the sign of a plain step. -/
theorem counting_read_back_iff {initial condition : Option Node} {last : Node}
    {counting : Counting Node}
    (h : Counting.ofLoop? initial condition (some last) = some counting)
    (hplain : (Node.loop initial condition (some last) []).Plain) (context : Context)
    (body : List Node) :
    let source := CounterLoop.ofCounting context counting last
    let text := (emit context (.loop initial condition (some last) body)).text
    (∃ update, readCounting? text = some { source with update := update } ∧
      ((∀ (V : Type) (meaning : CounterMeaning V), meaning.Respects context counting.name last →
          meaning.effect update = meaning.effect source.update) ↔
        ∀ op target amount, last = .operator op target amount → Counting.isPlainStep op amount →
          op = .addAssign ∧ ¬ amount.Mentions counting.name)) ∧
    ∀ initial' condition' last' other,
      Counting.ofLoop? initial' condition' (some last') = some other →
      (Node.loop initial' condition' (some last') []).Plain →
      ((emit context (.loop initial' condition' (some last') body)).text = text ↔
        last.stepsPlainly = last'.stepsPlainly ∧
          (CounterLoop.ofCounting context other last' = source ∨
            last.stepsPlainly ∧ CounterLoop.ofCounting context other last' = source.mirrored)) := by
  intro source text
  have hread := readCounting?_emit h hplain context body
  constructor
  · cases hsteps : last.stepsPlainly with
    | false =>
      refine ⟨source.update, ?_, iff_of_true (fun _ _ _ => rfl) ?_⟩
      · rw [hread, CounterLoop.written, hsteps]
        rfl
      · rintro op target amount rfl hstep
        exact Bool.noConfusion (hsteps.symm.trans hstep)
    | true =>
      cases last with
      | operator op target amount =>
        refine ⟨.add (emit context amount).text, ?_, (effect_bare_iff hsteps).trans ?_⟩
        · rw [hread, CounterLoop.written, hsteps]
          rfl
        · constructor
          · rintro hadds op' target' amount' heq -
            cases heq
            exact hadds
          · intro hall
            exact hall op target amount rfl hsteps
      | _ => cases hsteps
  · intro initial' condition' last' other h' hplain'
    have hread' := readCounting?_emit h' hplain' context body
    rw [← written_eq_iff]
    constructor
    · intro htext
      rw [htext, hread] at hread'
      exact Option.some.inj hread'
    · intro hwritten
      show _ = (emit context (.loop initial condition (some last) body)).text
      rw [text_emit_counting h, text_emit_counting h', hwritten]

/-- A loop that differs from every default, and whose update needs a callback. -/
theorem counting_read_back_callback :
    let start : Node := .operator .sub (.accessor "n") (.number "1" .uint)
    let initial : Node := .bindings [⟨"k", "uint", some start, true⟩]
    let condition : Node := .operator .greaterThanEqual (.accessor "k") (.accessor "low")
    let last : Node := .operator .mulAssign (.accessor "k") (.call "damp" [.accessor "k"])
    let counting : Counting Node :=
      ⟨"k", "uint", start, .greaterThanEqual, .accessor "low", .assign last⟩
    let source := CounterLoop.ofCounting (Section.context .default) counting last
    Counting.ofLoop? (some initial) (some condition) (some last) = some counting ∧
      (Node.loop (some initial) (some condition) (some last) []).Plain ∧
      ∃ update,
        readCounting? (emit (Section.context .default)
          (.loop (some initial) (some condition) (some last) [.continue])).text =
            some { source with update := update } ∧
        ∀ (V : Type) (meaning : CounterMeaning V),
          meaning.Respects (Section.context .default) "k" last →
            meaning.effect update = meaning.effect source.update := by
  intro start initial condition last counting source
  have hcounting : Counting.ofLoop? (some initial) (some condition) (some last) = some counting :=
    rfl
  have hplain : (Node.loop (some initial) (some condition) (some last) []).Plain :=
    show ∀ text ∈ (Node.loop (some initial) (some condition) (some last) []).strings,
      PlainText text by decide +kernel
  obtain ⟨⟨update, hread, hiff⟩, -⟩ :=
    counting_read_back_iff hcounting hplain (Section.context .default) [.continue]
  refine ⟨hcounting, hplain, update, hread, hiff.mpr ?_⟩
  intro op target amount heq hstep
  obtain ⟨rfl, -, rfl⟩ := Node.operator.inj heq
  cases hstep

/-- A step that is subtracted is read as one that is added. -/
theorem subtracted_step_read_as_added :
    let loop (op : BinaryOp) : Node := .loop
      (some (.bindings [⟨"i", "int", some (.number "10" .int), true⟩]))
      (some (.operator .greaterThan (.accessor "i") (.number "0" .int)))
      (some (.operator op (.accessor "i") (.number "2" .int))) [.call "foo" []]
    let text := (emit (Section.context .default) (loop .subAssign)).text
    text = "Loop( \x7b start: int( 10 ), end: int( 0 ), condition: '>', update: int( 2 ) \x7d, " ++
        "( \x7b i \x7d ) => \x7b\n\n\tfoo();\n\n\x7d )" ∧
      (emit (Section.context .default) (loop .addAssign)).text = text ∧
      readCounting? text =
        some ⟨"i", "int", "int( 10 )", .greaterThan, "int( 0 )", .add "int( 2 )"⟩ := by
  decide +kernel

end ShaderScript
