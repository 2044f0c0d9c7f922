import ShaderScript.Operator
import ShaderScript.Literal

/-!
# Shader programs as trees

A program is a list of nodes. Statements and expressions share one type, because a shader front end
may place any node anywhere; the generator decides what to make of it. The records inside a node are
parametrised by the type of the nodes they hold, so that they can also carry emitted text.
-/

namespace ShaderScript

/-- One name bound by a variable declaration. -/
structure Declarator (ν : Type) where
  name : String
  type : String
  value : Option ν
  /-- The variable is assigned to later. -/
  mutable : Bool

/-- How a function receives a parameter. -/
inductive Qualifier where
  | in
  | out
  | inout
deriving DecidableEq

namespace Qualifier

def spelling : Qualifier → String
  | .in => "in"
  | .out => "out"
  | .inout => "inout"

/-- Every qualifier. -/
def all : List Qualifier :=
  [.in, .out, .inout]

def ofSpelling? (spelling : String) : Option Qualifier :=
  all.find? fun qualifier => qualifier.spelling == spelling

/-- The function can write through the parameter. -/
def isPointer (qualifier : Qualifier) : Bool :=
  qualifier != .in

theorem ofSpelling?_spelling (qualifier : Qualifier) :
    ofSpelling? qualifier.spelling = some qualifier := by
  cases qualifier <;> decide

end Qualifier

structure Parameter where
  name : String
  type : String
  qualifier : Option Qualifier
  /-- The function assigns to the parameter. -/
  mutable : Bool
deriving DecidableEq

namespace Parameter

def isPointer (parameter : Parameter) : Bool :=
  parameter.qualifier.any Qualifier.isPointer

end Parameter

/-- A body with the condition it stands under: an `else` link, or a case of a `switch`. Without a
condition it is the final `else` or the default case. -/
structure Branch (ν : Type) where
  condition : Option ν
  body : List ν

namespace Branch

def isDefault {ν : Type} (branch : Branch ν) : Bool :=
  branch.condition.isNone

end Branch

/-- One link of an accessor chain. -/
inductive Element (ν : Type) where
  /-- A named member, as in `.xyz`. -/
  | member (value : ν)
  /-- An index, as in `[ i ]`. -/
  | index (value : ν)

structure FunctionDecl (ν : Type) where
  name : String
  /-- The result type. -/
  type : String
  params : List Parameter
  body : List ν
  /-- Layout data may be emitted for the function. -/
  layout : Bool

inductive Node where
  /-- A numeric literal; the text is kept as it was written. -/
  | number (value : String) (kind : NumberKind)
  | string (value : String)
  /-- A bare name. -/
  | accessor (property : String)
  | chain (object : Node) (elements : List (Element Node))
  | operator (op : BinaryOp) (left right : Node)
  /-- `trailing` tells the form that follows its operand, as in `i++`. -/
  | unary (op : UnaryOp) (operand : Node) (trailing : Bool)
  | ternary (condition left right : Node)
  | call (name : String) (args : List Node)
  | return (value : Option Node)
  | break
  | continue
  | discard
  /-- A declaration of variables. -/
  | bindings (declarators : List (Declarator Node))
  | uniform (name type : String)
  | varying (name type : String)
  | function (declaration : FunctionDecl Node)
  | conditional (condition : Node) (body : List Node) (alternates : List (Branch Node))
  | switch (discriminant : Node) (cases : List (Branch Node))
  | loop (initial condition afterthought : Option Node) (body : List Node)
  /-- A node of a kind the front end knows and the generator does not. -/
  | unknown

/-- The kinds of node. -/
inductive Kind where
  | number
  | string
  | accessor
  | chain
  | operator
  | unary
  | ternary
  | call
  | return
  | break
  | continue
  | discard
  | bindings
  | uniform
  | varying
  | function
  | conditional
  | switch
  | loop
  | unknown
deriving DecidableEq

namespace Kind

def name : Kind → String
  | .number => "Number"
  | .string => "String"
  | .accessor => "Accessor"
  | .chain => "AccessorChain"
  | .operator => "Operator"
  | .unary => "Unary"
  | .ternary => "Ternary"
  | .call => "FunctionCall"
  | .return => "Return"
  | .break => "Break"
  | .continue => "Continue"
  | .discard => "Discard"
  | .bindings => "VariableDeclaration"
  | .uniform => "Uniform"
  | .varying => "Varying"
  | .function => "FunctionDeclaration"
  | .conditional => "Conditional"
  | .switch => "Switch"
  | .loop => "For"
  | .unknown => "Unknown"

/-- Every kind of node. -/
def all : List Kind :=
  [.number, .string, .accessor, .chain, .operator, .unary, .ternary, .call,
    .return, .break, .continue, .discard, .bindings, .uniform, .varying, .function,
    .conditional, .switch, .loop, .unknown]

/-- The kind of this name; any other name is an unknown kind. -/
def ofName (name : String) : Kind :=
  (all.find? fun kind => kind.name == name).getD .unknown

theorem ofName_name (kind : Kind) : ofName kind.name = kind := by
  cases kind <;> decide

end Kind

namespace Node

def kind : Node → Kind
  | .number .. => .number
  | .string _ => .string
  | .accessor _ => .accessor
  | .chain .. => .chain
  | .operator .. => .operator
  | .unary .. => .unary
  | .ternary .. => .ternary
  | .call .. => .call
  | .return _ => .return
  | .break => .break
  | .continue => .continue
  | .discard => .discard
  | .bindings _ => .bindings
  | .uniform .. => .uniform
  | .varying .. => .varying
  | .function _ => .function
  | .conditional .. => .conditional
  | .switch .. => .switch
  | .loop .. => .loop
  | .unknown => .unknown

/-- A statement that packs with its neighbours: anything but a function, a loop, a conditional and
a switch. -/
def isExpressionLike : Node → Bool
  | .function _ | .loop .. | .conditional .. | .switch .. => false
  | _ => true

/-- The name, if the node is a bare name. -/
def accessorName? : Node → Option String
  | .accessor property => some property
  | _ => none

/-- The declarator, if the node declares exactly one variable. -/
def singleDeclarator? : Node → Option (Declarator Node)
  | .bindings [declarator] => some declarator
  | _ => none

end Node

/-- The top-level statements in order. -/
structure Program where
  body : List Node

end ShaderScript
