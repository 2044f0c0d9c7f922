import Mathlib.Tactic.SplitIfs
import ShaderScript.Proofs.Encoder.Basic

/-!
# Steps of the encoder

What a step gives depends on where the encoder is and on nothing else, and all it does to the
encoder is to add notes that do not depend on what is known already. This holds of the smallest
steps, is kept when steps follow each other, and is kept by the steps that go to another place,
since they come back.
-/

namespace ShaderScript

open Script

namespace Encoder

/-- Where the encoder is. -/
def context (encoder : Encoder) : Context :=
  ⟨encoder.options.reference, encoder.depth, encoder.block = .case, encoder.initializing⟩

/-- The encoder after some notes. -/
def take (encoder : Encoder) (notes : List Note) : Encoder :=
  let placed := PlacedNote.place encoder.bound notes
  { encoder with
    scope := encoder.scope.recordAll placed
    diagnostics := encoder.diagnostics ++ ShaderScript.diagnostics placed }

theorem take_nil (encoder : Encoder) : encoder.take [] = encoder := by
  simp [take, PlacedNote.place, Scope.recordAll, ShaderScript.diagnostics]

theorem take_take (encoder : Encoder) (before after : List Note) :
    (encoder.take before).take after = encoder.take (before ++ after) := by
  simp [take, PlacedNote.place, Scope.recordAll, ShaderScript.diagnostics]

theorem context_take (encoder : Encoder) (notes : List Note) :
    (encoder.take notes).context = encoder.context :=
  rfl

end Encoder

namespace Encoding

variable {α β : Type} {step : Encoding α} {next : α → Encoding β} {context : Context}
  {value : α} {result : β} {notes more : List Note}

/-- After a step that succeeds, the next one starts where it ended. -/
theorem run_bind {earlier later : Encoder} (h : step earlier = some (value, later)) :
    (step >>= next) earlier = next value later := by
  change (step earlier).bind (fun found => next found.1 found.2) = _
  rw [h, Option.bind_some]

theorem run_get {next : Encoder → Encoding β} (encoder : Encoder) :
    (get >>= next) encoder = next encoder encoder :=
  rfl

/-- Wherever the encoder is in the context, the step succeeds with this value, and all it does to
the encoder is to add these notes. -/
def Gives (step : Encoding α) (context : Context) (value : α) (notes : List Note) : Prop :=
  ∀ encoder : Encoder, encoder.context = context → step encoder = some (value, encoder.take notes)

namespace Gives

theorem of_eq {other : α} (h : Gives step context value notes) (hvalue : value = other)
    (hnotes : notes = more) : Gives step context other more := by
  subst hvalue hnotes
  exact h

protected theorem pure (value : α) : Gives (pure value) context value [] := by
  intro encoder _
  rw [encoder.take_nil]
  rfl

protected theorem bind (h : Gives step context value notes)
    (hnext : Gives (next value) context result more) :
    Gives (step >>= next) context result (notes ++ more) := by
  intro encoder hcontext
  rw [run_bind (h encoder hcontext), hnext (encoder.take notes)
    (by rw [encoder.context_take, hcontext]), encoder.take_take]

protected theorem map (f : α → β) (h : Gives step context value notes) :
    Gives (f <$> step) context (f value) notes := by
  intro encoder hcontext
  change (step encoder).bind (fun found => some (f found.1, found.2)) = _
  rw [h encoder hcontext, Option.bind_some]

theorem bind_pure (h : Gives step context value notes) (f : α → β) :
    Gives (do let found ← step; pure (f found)) context (f value) notes :=
  (h.bind (.pure (f value))).of_eq rfl (List.append_nil notes)

/-- A step may look at the state, as long as it only depends on the context. -/
protected theorem get {next : Encoder → Encoding β}
    (h : ∀ encoder : Encoder, encoder.context = context →
      Gives (next encoder) context result more) :
    Gives (get >>= next) context result more :=
  fun encoder hcontext => h encoder hcontext encoder hcontext

protected theorem record (note : Note) : Gives (record note) context () [note] :=
  fun _ _ => rfl

protected theorem recordEach (notes : List Note) : Gives (recordEach notes) context () notes := by
  induction notes with
  | nil => exact .pure ()
  | cons note notes ih => exact (Gives.record note).bind ih

protected theorem depth {next : Nat → Encoding β}
    (h : Gives (next context.depth) context result more) :
    Gives (depth >>= next) context result more := by
  intro encoder hcontext
  have hdepth : context.depth = encoder.depth := by
    subst hcontext
    rfl
  rw [hdepth] at h
  exact h encoder hcontext

theorem depth_pure (f : Nat → β) :
    Gives (do let found ← depth; pure (f found)) context (f context.depth) [] :=
  .depth (.pure _)

/-- The level is left again, so leaving it never fails. -/
protected theorem deeper (h : Gives step context.deeper value notes) :
    Gives (deeper step) context value notes := by
  intro encoder hcontext
  have hstep := h { encoder with depth := encoder.depth + 1 } (by subst hcontext; rfl)
  change (step { encoder with depth := encoder.depth + 1 }).bind _ = _
  rw [hstep]
  rfl

protected theorem inBlock (block : BlockKind)
    (h : Gives step { context with inCase := block = .case } value notes) :
    Gives (inBlock block step) context value notes := by
  intro encoder hcontext
  have hstep := h { encoder with block } (by subst hcontext; rfl)
  change (step { encoder with block }).bind _ = _
  rw [hstep]
  rfl

protected theorem inDeclaration (h : Gives step context.initializers value notes) :
    Gives (inDeclaration step) context value notes := by
  intro encoder hcontext
  have hstep := h { encoder with initializing := true } (by subst hcontext; rfl)
  change (step { encoder with initializing := true }).bind _ = _
  rw [hstep]
  rfl

end Gives

/-! ## Forms -/

section Forms

variable (context)

theorem gives_binary (op : BinaryOp) (left right : Fragment) :
    ∃ own, Gives (binary op left.text right.text) context (Form.binary op left right).text own ∧
      (Form.binary op left right).notes = left.notes ++ (right.notes ++ own) := by
  unfold binary Form.binary
  split_ifs
  · exact ⟨[], .pure _, by simp⟩
  · exact ⟨[_], (Gives.record _).bind (.pure _), by simp⟩
  · exact ⟨[], .pure _, by simp⟩
  · exact ⟨[], .pure _, by simp⟩

theorem gives_unary (op : UnaryOp) (trailing initializing : Bool) (operand : Fragment) :
    ∃ own, Gives
        (match Form.unaryMethod? op trailing initializing with
          | none => pure operand.text
          | some name => unary name operand.text)
        context (Form.unary op trailing initializing operand).text own ∧
      (Form.unary op trailing initializing operand).notes = operand.notes ++ own := by
  unfold Form.unary
  cases Form.unaryMethod? op trailing initializing with
  | none => exact ⟨[], .pure _, by simp⟩
  | some name =>
    simp only [unary]
    split_ifs
    · exact ⟨[_], (Gives.record _).bind (.pure _), rfl⟩
    · exact ⟨[], .pure _, by simp⟩

theorem gives_call (name : String) (args : List Fragment) :
    ∃ own, Gives (call name (Fragment.texts args)) context (Form.call name args).text own ∧
      (Form.call name args).notes = Fragment.allNotes args ++ own := by
  unfold call Form.call
  cases sampleChain? name (Fragment.texts args) with
  | none => exact ⟨[_], (Gives.record _).bind (.pure _), rfl⟩
  | some chain => exact ⟨[], .pure _, by simp⟩

theorem gives_uniform (name type : String) :
    Gives (uniform name type) context (Form.uniform context.reference name type).text
      (Form.uniform context.reference name type).notes := by
  rw [Form.uniform]
  refine (Gives.record _).bind (Gives.get fun encoder hcontext => ?_)
  have hreference : encoder.options.reference = context.reference := by
    subst hcontext
    rfl
  simp only [hreference, Form.uniformValue]
  cases context.reference with
  | true => exact (Gives.record _).bind (.pure _)
  | false =>
    cases Form.resource? type with
    | none => exact (Gives.record _).bind (.pure _)
    | some resource => exact (Gives.record _).bind (.pure _)

theorem gives_varying (name type : String) :
    Gives (varying name type) context (Form.varying name type).text
      (Form.varying name type).notes :=
  (Gives.record _).bind ((Gives.record _).bind ((Gives.record _).bind (.pure _)))

theorem gives_control (name : String) :
    Gives (control name) context (Form.control name).text (Form.control name).notes :=
  (Gives.record _).bind (.pure _)

theorem text_link_index (value : Fragment) :
    (Form.link (.index value)).text = link (.index value.text) := by
  rw [Form.link, link]
  split_ifs <;> rfl

theorem notes_link_index (value : Fragment) : (Form.link (.index value)).notes = value.notes := by
  rw [Form.link]
  split_ifs <;> rfl

theorem gives_alternateLink (condition : Option Fragment) (content : Fragment) :
    Gives (alternateLink (condition.map Fragment.text) content.text) context
      (Form.alternate context.depth (condition, content)).text [] := by
  cases condition with
  | none => exact .depth_pure _
  | some condition => exact .depth_pure _

theorem gives_caseLink (labels : List String) (content : String) :
    Gives (caseLink labels content) context
      ("." ++ apply "Case" (labels ++ [thunk context.depth content])) [] :=
  .depth_pure _

theorem gives_defaultLink (content : String) :
    Gives (defaultLink content) context ("." ++ apply "Default" [thunk context.depth content]) [] :=
  .depth_pure _

end Forms

end Encoding

end ShaderScript
