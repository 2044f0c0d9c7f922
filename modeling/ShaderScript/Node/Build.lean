import ShaderScript.Node.Basic

/-!
# Building trees by hand

Short forms for the common nodes. Operators are given by their spelling, so a form that takes one
can fail.
-/

namespace ShaderScript

/-- Why a tree could not be built. -/
inductive BuildError where
  | unknownBinary (spelling : String)
  | unknownUnary (spelling : String)
deriving DecidableEq

namespace BuildError

def message : BuildError → String
  | unknownBinary spelling => "unknown binary operator `" ++ spelling ++ "`"
  | unknownUnary spelling => "unknown unary operator `" ++ spelling ++ "`"

end BuildError

namespace Build

def number (value : String) : Node :=
  .number value .float

/-- The member link with this name. -/
def field (name : String) : Element Node :=
  .member (.accessor name)

def binary (spelling : String) (left right : Node) : Except BuildError Node :=
  match BinaryOp.ofSpelling? spelling with
  | some op => .ok (.operator op left right)
  | none => .error (.unknownBinary spelling)

/-- An operator before its operand. -/
def unary (spelling : String) (operand : Node) : Except BuildError Node :=
  match UnaryOp.ofSpelling? spelling with
  | some op => .ok (.unary op operand false)
  | none => .error (.unknownUnary spelling)

/-- An operator after its operand. -/
def trailing (spelling : String) (operand : Node) : Except BuildError Node :=
  match UnaryOp.ofSpelling? spelling with
  | some op => .ok (.unary op operand true)
  | none => .error (.unknownUnary spelling)

/-- A binding that is never assigned to again. -/
def declarator (type name : String) (value : Option Node) : Declarator Node :=
  ⟨name, type, value, false⟩

/-- One variable that keeps its value. -/
def fixed (type name : String) (value : Option Node) : Node :=
  .bindings [declarator type name value]

/-- One variable that is assigned to later. -/
def mutable (type name : String) (value : Option Node) : Node :=
  .bindings [{ declarator type name value with mutable := true }]

def uniform (type name : String) : Node :=
  .uniform name type

def varying (type name : String) : Node :=
  .varying name type

/-- A parameter that is passed in and never assigned to. -/
def param (type name : String) : Parameter :=
  ⟨name, type, none, false⟩

def function (name type : String) (params : List Parameter) (body : List Node) : Node :=
  .function ⟨name, type, params, body, true⟩

/-- A branch under a condition. -/
def branch (condition : Node) (body : List Node) : Branch Node :=
  ⟨some condition, body⟩

/-- The branch taken when no condition holds. -/
def otherwise (body : List Node) : Branch Node :=
  ⟨none, body⟩

/-- A loop with all three of its parts. -/
def loop (initial condition afterthought : Node) (body : List Node) : Node :=
  .loop (some initial) (some condition) (some afterthought) body

end Build

end ShaderScript
