import ShaderScript.Node.Basic
import ShaderScript.Json.Writer

/-!
# Writing nodes as JSON values

A node is written as an object: its kind, and then all of its fields, defaults included.
-/

namespace ShaderScript.Wire

open ShaderScript.Json

/-- An object of the given kind. -/
def tagged (kind : String) (fields : List (String × Value)) : Value :=
  .obj (("kind", .str kind) :: fields)

def encodeQualifier : Option Qualifier → Value
  | none => .null
  | some qualifier => .str qualifier.spelling

def encodeParameter (parameter : Parameter) : Value :=
  .obj [("name", .str parameter.name), ("type", .str parameter.type),
    ("qualifier", encodeQualifier parameter.qualifier), ("mutable", .bool parameter.mutable)]

mutual

def encodeNode : Node → Value
  | .number value kind =>
    tagged "Number" [("value", .str value), ("type", .str kind.spelling)]
  | .string value => tagged "String" [("value", .str value)]
  | .accessor property => tagged "Accessor" [("property", .str property)]
  | .chain object elements =>
    tagged "AccessorChain"
      [("object", encodeNode object), ("elements", .arr (encodeElements elements))]
  | .operator op left right =>
    tagged "Operator"
      [("type", .str op.spelling), ("left", encodeNode left), ("right", encodeNode right)]
  | .unary op operand trailing =>
    tagged "Unary"
      [("type", .str op.spelling), ("expression", encodeNode operand),
        ("postfix", .bool trailing)]
  | .ternary condition left right =>
    tagged "Ternary"
      [("cond", encodeNode condition), ("left", encodeNode left), ("right", encodeNode right)]
  | .call name args =>
    tagged "FunctionCall" [("name", .str name), ("params", .arr (encodeNodes args))]
  | .return value => tagged "Return" [("value", encodeOptional value)]
  | .break => tagged "Break" []
  | .continue => tagged "Continue" []
  | .discard => tagged "Discard" []
  | .bindings declarators =>
    tagged "VariableDeclaration" [("declarators", .arr (encodeDeclarators declarators))]
  | .uniform name type => tagged "Uniform" [("name", .str name), ("type", .str type)]
  | .varying name type => tagged "Varying" [("name", .str name), ("type", .str type)]
  | .function ⟨name, type, params, body, layout⟩ =>
    tagged "FunctionDeclaration"
      [("name", .str name), ("type", .str type), ("params", .arr (params.map encodeParameter)),
        ("body", .arr (encodeNodes body)), ("layout", .bool layout)]
  | .conditional condition body alternates =>
    tagged "Conditional"
      [("cond", encodeNode condition), ("body", .arr (encodeNodes body)),
        ("alternates", .arr (encodeBranches "cond" alternates))]
  | .switch discriminant cases =>
    tagged "Switch"
      [("discriminant", encodeNode discriminant),
        ("cases", .arr (encodeBranches "condition" cases))]
  | .loop initial condition afterthought body =>
    tagged "For"
      [("initialization", encodeOptional initial), ("condition", encodeOptional condition),
        ("afterthought", encodeOptional afterthought), ("body", .arr (encodeNodes body))]
  | .unknown => tagged "Unknown" []

def encodeOptional : Option Node → Value
  | none => .null
  | some node => encodeNode node

def encodeNodes : List Node → List Value
  | [] => []
  | node :: nodes => encodeNode node :: encodeNodes nodes

def encodeElement : Element Node → Value
  | .member value => tagged "Static" [("value", encodeNode value)]
  | .index value => tagged "Dynamic" [("value", encodeNode value)]

def encodeElements : List (Element Node) → List Value
  | [] => []
  | element :: elements => encodeElement element :: encodeElements elements

def encodeDeclarator : Declarator Node → Value
  | ⟨name, type, value, mutable⟩ =>
    .obj [("name", .str name), ("type", .str type), ("value", encodeOptional value),
      ("mutable", .bool mutable)]

def encodeDeclarators : List (Declarator Node) → List Value
  | [] => []
  | declarator :: declarators => encodeDeclarator declarator :: encodeDeclarators declarators

/-- The condition of an `else` link and that of a case have different keys. -/
def encodeBranch (key : String) : Branch Node → Value
  | ⟨condition, body⟩ =>
    .obj [(key, encodeOptional condition), ("body", .arr (encodeNodes body))]

def encodeBranches (key : String) : List (Branch Node) → List Value
  | [] => []
  | branch :: branches => encodeBranch key branch :: encodeBranches key branches

end

def encodeProgram (program : Program) : Value :=
  .obj [("body", .arr (encodeNodes program.body))]

end ShaderScript.Wire

namespace ShaderScript.Program

/-- The JSON text of a program. -/
def save (program : Program) : String :=
  (Wire.encodeProgram program).write

end ShaderScript.Program
