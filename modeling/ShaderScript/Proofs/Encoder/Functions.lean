import ShaderScript.Proofs.Continuation
import ShaderScript.Proofs.Encoder.Agreement

/-!
# Functions of the encoder

A state goes on from another one if the encoder is where it was and nothing has been taken from what
it had found. The body of a function is emitted with names bound that are not bound around it. They
are forgotten afterwards, and everything else goes on.
-/

namespace ShaderScript

open Script

/-! ## Going on from a state -/

namespace Encoder

/-- The later state is where the earlier one was, and what was found is still at the front of what
is. -/
structure Continues (earlier later : Encoder) : Prop where
  options : later.options = earlier.options
  overloads : later.overloads = earlier.overloads
  depth : later.depth = earlier.depth
  block : later.block = earlier.block
  initializing : later.initializing = earlier.initializing
  bound : later.bound = earlier.bound
  imports : earlier.scope.imports <+: later.scope.imports
  globals : earlier.scope.globals <+: later.scope.globals
  diagnostics : earlier.diagnostics <+: later.diagnostics

/-- Notes are put behind what has been found, and nothing else changes. -/
theorem continues_take (encoder : Encoder) (notes : List Note) :
    encoder.Continues (encoder.take notes) where
  options := rfl
  overloads := rfl
  depth := rfl
  block := rfl
  initializing := rfl
  bound := rfl
  imports := Scope.imports_prefix_recordAll _ _
  globals := by
    rw [take, Scope.globals_recordAll]
    exact Scope.prefix_foldl_addName _ _
  diagnostics := List.prefix_append _ _

theorem Continues.trans {first second third : Encoder} (h : first.Continues second)
    (hnext : second.Continues third) : first.Continues third where
  options := hnext.options.trans h.options
  overloads := hnext.overloads.trans h.overloads
  depth := hnext.depth.trans h.depth
  block := hnext.block.trans h.block
  initializing := hnext.initializing.trans h.initializing
  bound := hnext.bound.trans h.bound
  imports := h.imports.trans hnext.imports
  globals := h.globals.trans hnext.globals
  diagnostics := h.diagnostics.trans hnext.diagnostics

/-- The bound names may be forgotten on both sides. -/
theorem Continues.unbind {earlier later : Encoder} (h : earlier.Continues later) :
    Continues { earlier with bound := [] } { later with bound := [] } :=
  { h with bound := rfl }

end Encoder

/-! ## Functions -/

section Functions

variable (encoder : Encoder) (function : FunctionDecl Node)

/-- The body of a function is emitted where the encoder is, whatever block that is in. -/
def Encoder.functionBody : Fragment :=
  emitBody encoder.context.outsideCase.deeper function.statements

/-- The encoder after the body of a function: the notes were taken where its names were bound, which
they no longer are. -/
def Encoder.afterBody : Encoder :=
  { Encoder.take { encoder with bound := function.boundNames }
      (encoder.functionBody function).notes with
    bound := [] }

/-- A function leaves no name bound, whatever was bound before. -/
theorem Encoder.continues_afterBody :
    Continues { encoder with bound := [] } (encoder.afterBody function) :=
  (continues_take { encoder with bound := function.boundNames } _).unbind

theorem inFunction_encodeBody :
    Encoding.inFunction function.boundNames (encodeBody function.statements) encoder =
      some ((encoder.functionBody function).text, encoder.afterBody function) := by
  have hbody : Encoding.Gives (encodeBody function.statements) encoder.context.outsideCase
      (encoder.functionBody function).text (encoder.functionBody function).notes :=
    gives_body _ fun node _ => node.agrees
  have hstep := hbody.inBlock .function { encoder with bound := function.boundNames } rfl
  change Option.bind (Encoding.inBlock .function _ _) _ = _
  rw [hstep]
  rfl

/-- The text of a function at the given depth. -/
def FunctionDecl.textAt (options : Options) (depth : Nat) (overload : Option Overload)
    (content : String) : String :=
  let constant := function.constantAt options depth overload content
  match overload with
  | none => constant
  | some overload =>
    if overload.isLast then constant ++ "\n" ++ function.dispatcherText options overload.size
    else constant

theorem gives_declare (context : Context) (options : Options) (depth : Nat)
    (overload : Option Overload) (content : String) :
    Encoding.Gives (function.declare options depth overload content) context
      (function.textAt options depth overload content) (function.ownNotes overload) := by
  cases overload with
  | none => exact (Encoding.Gives.record _).bind ((Encoding.Gives.record _).bind (.pure _))
  | some overload =>
    cases hlast : overload.isLast with
    | false =>
      simp only [FunctionDecl.declare, FunctionDecl.textAt, FunctionDecl.ownNotes,
        FunctionDecl.closesOverloads, hlast, Bool.false_eq_true, if_false]
      exact (Encoding.Gives.record _).bind ((Encoding.Gives.record _).bind (.pure _))
    | true =>
      simp only [FunctionDecl.declare, FunctionDecl.textAt, FunctionDecl.ownNotes,
        FunctionDecl.closesOverloads, hlast, if_true]
      exact (Encoding.Gives.record _).bind
        ((Encoding.Gives.record _).bind ((Encoding.Gives.record _).bind (.pure _)))

theorem encodeFunction_eq (index : Nat) :
    encodeFunction function index encoder =
      let overload := encoder.overloads.member? function.name index
      some (function.textAt encoder.options encoder.depth overload
          (encoder.functionBody function).text,
        (encoder.afterBody function).take (function.ownNotes overload)) := by
  have hafter := encoder.continues_afterBody function
  rw [encodeFunction, Encoding.run_bind (inFunction_encodeBody encoder function),
    Encoding.run_get, gives_declare function _ _ _ _ _ (encoder.afterBody function) rfl,
    hafter.options, hafter.depth, hafter.overloads]

/-- At the depth of the document, this is the text of a top-level function. -/
theorem FunctionDecl.textAt_depth (options : Options) (overload : Option Overload)
    (content : String) :
    function.textAt options options.depth overload content =
      function.text options overload content :=
  rfl

end Functions

end ShaderScript
