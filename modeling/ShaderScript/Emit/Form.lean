import ShaderScript.Emit.Fragment
import ShaderScript.Node.Basic
import ShaderScript.Sampling

/-!
# Expressions and declarations

How the fragments of the parts of a node are put together to the fragment of the node, for every
node that has no body.
-/

namespace ShaderScript.Form

open Script

/-- A narrow literal is wrapped in its conversion, any other is kept as it was written. -/
def number (value : String) (kind : NumberKind) : Fragment :=
  if kind.isNarrow then ⟨apply kind.spelling [value], [.mention kind.spelling]⟩
  else .plain (orUnknown value)

def accessor (property : String) : Fragment :=
  ⟨orUnknown property, [.mention property]⟩

/-- A binary operator between literals stays as it was written. Otherwise it is a free function if
its left operand is a literal, and a method of the left operand if not. Member access just joins its
operands. -/
def binary (op : BinaryOp) (left right : Fragment) : Fragment :=
  let notes := left.notes ++ right.notes
  if startsLiteral left.text && startsLiteral right.text then
    ⟨left.text ++ " " ++ op.spelling ++ " " ++ right.text, notes⟩
  else if startsLiteral left.text then
    ⟨apply op.method [left.text, right.text], notes ++ [.mention op.method]⟩
  else if op = .member then ⟨left.text ++ "." ++ right.text, notes⟩
  else ⟨method left.text op.method [right.text], notes⟩

/-- A sign before a number goes into the conversion of the number. -/
def signedNumber (op : UnaryOp) (value : String) (kind : NumberKind) : Fragment :=
  ⟨apply kind.spelling [op.spelling ++ " " ++ value], [.mention kind.spelling]⟩

/-- The combinator for a unary operator. A step takes the form that returns the new value, unless
it stands behind its operand in an initializer. -/
def unaryMethod? (op : UnaryOp) (trailing initializing : Bool) : Option String :=
  op.method?.map fun base =>
    if op.isStep && (!initializing || !trailing) then base ++ "Before" else base

def unary (op : UnaryOp) (trailing initializing : Bool) (operand : Fragment) : Fragment :=
  match unaryMethod? op trailing initializing with
  | none => operand
  | some name =>
    if startsLiteral operand.text then
      ⟨apply name [operand.text], operand.notes ++ [.mention name]⟩
    else ⟨method operand.text name [], operand.notes⟩

def ternary (condition left right : Fragment) : Fragment :=
  ⟨apply "select" [condition.text, left.text, right.text],
    condition.notes ++ left.notes ++ right.notes ++ [.mention "select"]⟩

def call (name : String) (args : List Fragment) : Fragment :=
  match sampleChain? name (Fragment.texts args) with
  | some chain => ⟨chain, Fragment.allNotes args⟩
  | none => ⟨apply name (Fragment.texts args), Fragment.allNotes args ++ [.mention name]⟩

/-- A member is joined with a point. An index keeps its brackets if it is a literal and becomes a
call if not. -/
def link : Element Fragment → Fragment
  | .member value => ⟨"." ++ value.text, value.notes⟩
  | .index value =>
    if startsLiteral value.text then ⟨bracketed [value.text], value.notes⟩
    else ⟨"." ++ apply "element" [value.text], value.notes⟩

def chain (object : Fragment) (links : List Fragment) : Fragment :=
  ⟨object.text ++ String.join (Fragment.texts links), object.notes ++ Fragment.allNotes links⟩

/-- A return, with or without a value. -/
def returned : Option Fragment → Fragment
  | none => .plain "return"
  | some value => ⟨"return " ++ value.text, value.notes⟩

/-- A call of the library that leaves a loop, an iteration or the shader. -/
def control (name : String) : Fragment :=
  ⟨apply name [], [.mention name]⟩

/-- One binding of a declaration. The value is converted to the declared type, unless it is a call
of that type already. -/
def binding (name type : String) (value : Option Fragment) (isConverted mutable : Bool) :
    Fragment :=
  let converted : Fragment :=
    match value with
    | none => .plain (apply type [])
    | some value => if isConverted then value else ⟨apply type [value.text], value.notes⟩
  ⟨name ++ " = " ++ converted.text ++ (if mutable then ".toVar()" else ""), converted.notes⟩

/-- A declaration of variables; their types are noted after all values, the last one first. -/
def bindings (parts : List Fragment) (types : List String) : Fragment :=
  ⟨"const " ++ join (Fragment.texts parts),
    Fragment.allNotes parts ++ types.reverse.map Note.mention⟩

/-- The constructor of a resource of this type, and the class of the resource. -/
def resource? (type : String) : Option (String × String) :=
  if type = "texture" ∨ type = "sampler2D" then some ("texture", "THREE.Texture")
  else if type = "cubeTexture" ∨ type = "samplerCube" then some ("cubeTexture", "THREE.CubeTexture")
  else if type = "texture3D" ∨ type = "sampler3D" then some ("texture3D", "THREE.Data3DTexture")
  else none

/-- The value of a uniform: a reference to the outside store, a resource to be filled in, or a plain
uniform. -/
def uniformValue (reference : Bool) (name type : String) : Fragment :=
  if reference then
    ⟨apply "reference" [literal "value", literal type, "uniforms" ++ bracketed [literal name]],
      [.mention "reference"]⟩
  else
    match resource? type with
    | some (constructor, className) =>
      ⟨apply constructor ["/* <" ++ className ++ "> */"], [.mention constructor]⟩
    | none => ⟨apply "uniform" [literal type], [.mention "uniform"]⟩

/-- A uniform is global before its value is looked at. -/
def uniform (reference : Bool) (name type : String) : Fragment :=
  let value := uniformValue reference name type
  ⟨"const " ++ name ++ " = " ++ value.text, .declare name :: value.notes⟩

/-- A varying is global after its value has been looked at. -/
def varying (name type : String) : Fragment :=
  ⟨"const " ++ name ++ " = " ++ apply "varying" [apply type [], literal name],
    [.mention "varying", .mention type, .declare name]⟩

/-- A function that is not at the top level is left out. -/
def nestedFunction (name : String) : Fragment :=
  ⟨unknownStatement, [.report (.nestedFunction name)]⟩

def unknown : Fragment :=
  ⟨unknownStatement, [.report .unknownNode]⟩

end ShaderScript.Form
