import ShaderScript.Emit.Body
import ShaderScript.Emit.Loop
import ShaderScript.Emit.Switch

/-!
# Emitting nodes

The recursion over the tree. What a node becomes depends on the node and on where it stands, which
is passed down; what is learnt on the way comes back with the text, as notes.
-/

namespace ShaderScript

/-- Where a node stands. -/
structure Context where
  /-- Uniforms are bound to an outside store. -/
  reference : Bool
  /-- The depth of the statement that the node belongs to. -/
  depth : Nat
  /-- The innermost loop or switch around the node is a switch. -/
  inCase : Bool
  /-- The node is part of a variable declaration. -/
  initializing : Bool
deriving DecidableEq

namespace Context

/-- The statements of a body. -/
def deeper (context : Context) : Context :=
  { context with depth := context.depth + 1 }

/-- Outside the cases of a switch. -/
def outsideCase (context : Context) : Context :=
  { context with inCase := false }

/-- The cases of a switch. -/
def cases (context : Context) : Context :=
  { context.deeper with inCase := true }

/-- The values of a declaration. -/
def initializers (context : Context) : Context :=
  { context with initializing := true }

end Context

namespace Node

/-- The node is a call of the given function. -/
def isCallOf (name : String) : Node → Bool
  | .call callee _ => callee == name
  | _ => false

end Node

/-- The body of these statements, which are emitted in the given context. -/
def Body.ofFragments (context : Context) (nodes : List Node) (fragments : List Fragment) :
    Fragment :=
  Body.assemble context.depth context.inCase nodes fragments

mutual

/-- The fragment of a node. -/
def emit (context : Context) : Node → Fragment
  | .number value kind => Form.number value kind
  | .string value => .plain (Script.literal value)
  | .accessor property => Form.accessor property
  | .chain object elements => Form.chain (emit context object) (emitElements context elements)
  | .operator op left right => Form.binary op (emit context left) (emit context right)
  | .unary op (.number value kind) _ => Form.signedNumber op value kind
  | .unary op operand trailing =>
    Form.unary op trailing context.initializing (emit context operand)
  | .ternary condition left right =>
    Form.ternary (emit context condition) (emit context left) (emit context right)
  | .call name args => Form.call name (emitAll context args)
  | .return value => Form.returned (emitOptional context value)
  | .break => Form.control "Break"
  | .continue => Form.control "Continue"
  | .discard => Form.control "Discard"
  | .bindings declarators =>
    Form.bindings (emitDeclarators context.initializers declarators)
      (declarators.map Declarator.type)
  | .uniform name type => Form.uniform context.reference name type
  | .varying name type => Form.varying name type
  | .function declaration => Form.nestedFunction declaration.name
  | .conditional condition body alternates =>
    Form.conditional context.depth (emit context condition)
      (Body.ofFragments context.deeper body (emitAll context.deeper body))
      (emitAlternates context alternates)
  | .switch discriminant cases =>
    Form.switch context.depth (emit context discriminant) (emitCases context.cases cases)
  | .loop initial condition afterthought body =>
    match Counting.ofLoop? initial condition afterthought with
    | some counting =>
      let inner := context.outsideCase.deeper
      Form.countingLoop context.depth
        { name := counting.name
          type := counting.type
          start := emitStart context initial
          comparison := counting.comparison
          limit := emitRight context condition
          update :=
            match counting.update with
            | .increment => .increment
            | .decrement => .decrement
            | .step _ => .step (emitRight context afterthought)
            | .assign _ => .assign (emitAssignment context afterthought) }
        (Body.ofFragments inner body (emitAll inner body))
    | none =>
      let inner := context.outsideCase.deeper.deeper
      Form.generalLoop context.depth (emitOptional context initial)
        (emitOptional context condition) (emitOptional context afterthought)
        (Body.ofFragments inner body (emitAll inner body))
  | .unknown => Form.unknown

def emitOptional (context : Context) : Option Node → Option Fragment
  | none => none
  | some node => some (emit context node)

def emitAll (context : Context) : List Node → List Fragment
  | [] => []
  | node :: nodes => emit context node :: emitAll context nodes

def emitElement (context : Context) : Element Node → Fragment
  | .member value => Form.link (.member (emit context value))
  | .index value => Form.link (.index (emit context value))

def emitElements (context : Context) : List (Element Node) → List Fragment
  | [] => []
  | element :: elements => emitElement context element :: emitElements context elements

def emitDeclarator (context : Context) : Declarator Node → Fragment
  | ⟨name, type, value, mutable⟩ =>
    Form.binding name type (emitOptional context value) (value.any (Node.isCallOf type)) mutable

def emitDeclarators (context : Context) : List (Declarator Node) → List Fragment
  | [] => []
  | declarator :: declarators =>
    emitDeclarator context declarator :: emitDeclarators context declarators

def emitAlternate (context : Context) : Branch Node → Option Fragment × Fragment
  | ⟨condition, body⟩ =>
    (emitOptional context condition,
      Body.ofFragments context.deeper body (emitAll context.deeper body))

def emitAlternates (context : Context) : List (Branch Node) → List (Option Fragment × Fragment)
  | [] => []
  | branch :: branches => emitAlternate context branch :: emitAlternates context branches

/-- A case without statements has no body. -/
def emitCase (context : Context) : Branch Node → Option Fragment × Option Fragment
  | ⟨condition, body⟩ =>
    (emitOptional context condition,
      if body.isEmpty then none
      else some (Body.ofFragments context.deeper body (emitAll context.deeper body)))

def emitCases (context : Context) :
    List (Branch Node) → List (Option Fragment × Option Fragment)
  | [] => []
  | branch :: branches => emitCase context branch :: emitCases context branches

/-- The value that the counter of a counting loop starts with. -/
def emitStart (context : Context) : Option Node → Fragment
  | some (.bindings [⟨_, _, some start, _⟩]) => emit context start
  | _ => .plain ""

/-- The right operand of an operator. -/
def emitRight (context : Context) : Option Node → Fragment
  | some (.operator _ _ right) => emit context right
  | _ => .plain ""

/-- An assignment. -/
def emitAssignment (context : Context) : Option Node → Fragment
  | some node => emit context node
  | none => .plain ""

end

end ShaderScript
