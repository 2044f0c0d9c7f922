import ShaderScript.Emit.Node
import ShaderScript.Emit.Options

/-!
# Functions

A top-level function becomes a constant. Functions of one name are overloads: each gets a number,
and after the last of them a dispatcher takes the name itself. Inputs are read-only in the target,
so a parameter that the body assigns to is received under another name and copied into a variable.
-/

namespace ShaderScript

/-- What is put after the name of a parameter that is copied. -/
def immutableSuffix : String :=
  "_immutable"

namespace Parameter

/-- The parameter is received under another name. -/
def isCopied (parameter : Parameter) : Bool :=
  parameter.mutable && !parameter.isPointer

/-- The name under which the function receives the parameter. -/
def inputName (parameter : Parameter) : String :=
  if parameter.isCopied then parameter.name ++ immutableSuffix else parameter.name

/-- The variable that a copied parameter is kept in. -/
def copy (parameter : Parameter) : Node :=
  .bindings [⟨parameter.name, parameter.type, some (.accessor parameter.inputName), true⟩]

end Parameter

/-- The place of a function among the top-level functions of its name. -/
structure Overload where
  index : Nat
  size : Nat
deriving DecidableEq

namespace Overload

/-- The place of a function of this name after the functions named in `earlier`, where `all` are the
names of all functions. A function that has its name for itself is no overload. -/
def of? (all earlier : List String) (name : String) : Option Overload :=
  let size := all.count name
  if 1 < size then some ⟨earlier.count name, size⟩ else none

def isLast (overload : Overload) : Bool :=
  overload.index + 1 == overload.size

/-- The name of an overload. -/
def memberName (name : String) (index : Nat) : String :=
  name ++ "_" ++ toString index

end Overload

namespace FunctionDecl

open Script

variable {ν : Type}

/-- The names that the function binds: each parameter, and the name it is received under. -/
def boundNames (function : FunctionDecl ν) : List String :=
  function.params.flatMap fun parameter => [parameter.name, parameter.inputName]

/-- The statements of the function, after the copies of its parameters. -/
def statements (function : FunctionDecl Node) : List Node :=
  (function.params.filter Parameter.isCopied).map Parameter.copy ++ function.body

/-- The name of the constant that holds the function. -/
def constantName (function : FunctionDecl ν) : Option Overload → String
  | none => function.name
  | some overload => Overload.memberName function.name overload.index

/-- The parameters between their parentheses. -/
def inputList (function : FunctionDecl ν) : String :=
  if function.params.isEmpty then "()"
  else "( " ++ bracketed (function.params.map Parameter.inputName) ++ " )"

/-- The types of the function, if it may have a layout. A function with a pointer never has. -/
def layoutText (function : FunctionDecl ν) : String :=
  if function.layout && !function.params.any Parameter.isPointer then
    " , " ++ braced
      (function.params.map (fun parameter => entry parameter.name (literal parameter.type)) ++
        [entry "return" (literal function.type)])
  else ""

/-- The declaration of the constant that holds the function. -/
def constantText (function : FunctionDecl ν) (options : Options) (overload : Option Overload)
    (body : String) : String :=
  options.lead ++ "const " ++ function.constantName overload ++ " = /*#__PURE__*/ Fn( " ++
    callback function.inputList options.depth body ++ function.layoutText ++ " );\n"

/-- The declaration of the dispatcher for `size` overloads. -/
def dispatcherText (function : FunctionDecl ν) (options : Options) (size : Nat) : String :=
  options.lead ++ "const " ++ function.name ++ " = /*#__PURE__*/ " ++
    apply "overloadingFn"
      [bracketed ((List.range size).map (Overload.memberName function.name))] ++ ";\n"

/-- The function is the last one of several overloads. -/
def closesOverloads : Option Overload → Bool
  | none => false
  | some overload => overload.isLast

/-- The text of a top-level function, from the text of its body. -/
def text (function : FunctionDecl ν) (options : Options) (overload : Option Overload)
    (body : String) : String :=
  let constant := function.constantText options overload body
  match overload with
  | none => constant
  | some overload =>
    if overload.isLast then constant ++ "\n" ++ function.dispatcherText options overload.size
    else constant

/-- The notes that a top-level function leaves after those of its body. -/
def ownNotes (function : FunctionDecl ν) (overload : Option Overload) : List Note :=
  [.require "Fn", .declare function.name] ++
    (if closesOverloads overload then [.mention "overloadingFn"] else [])

/-- The body of a top-level function. -/
def emitBody (options : Options) (function : FunctionDecl Node) : Fragment :=
  let context : Context := ⟨options.reference, options.depth + 1, false, false⟩
  Body.ofFragments context function.statements (emitAll context function.statements)

end FunctionDecl

end ShaderScript
