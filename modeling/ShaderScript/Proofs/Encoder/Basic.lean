import ShaderScript.Emit.Document

/-!
# Emission with a state

The same texts can be written by an encoder that walks the tree once and keeps what it knows in a
state: where it is, which changes on the way down and has to be put back on the way up, and what it
has found, which only grows. A body is put together in one piece of text, and so is the chain of a
switch. Leaving a level that was not entered ends the walk without a result.
-/

namespace ShaderScript

open Script

/-- The innermost block around a statement. -/
inductive BlockKind where
  | module
  | function
  | loop
  | case
deriving DecidableEq

/-- The top-level functions that share a name: for each such name, the places of its functions among
the statements. -/
abbrev Overloads :=
  List (String × List Nat)

namespace Overloads

/-- The place of the function at the given index among those of its name. -/
def member? (overloads : Overloads) (name : String) (index : Nat) : Option Overload := do
  let members ← overloads.lookup name
  let place ← members.idxOf? index
  some ⟨place, members.length⟩

end Overloads

structure Encoder where
  options : Options
  scope : Scope
  /-- The names that the function around binds. -/
  bound : List String
  overloads : Overloads
  depth : Nat
  block : BlockKind
  /-- The values of a declaration are being emitted. -/
  initializing : Bool
  diagnostics : List Diagnostic

/-- A step of the encoder. -/
abbrev Encoding :=
  StateT Encoder Option

namespace Encoding

variable {α : Type}

/-- Takes a note into account, where the encoder is. -/
def record (note : Note) : Encoding Unit :=
  modify fun encoder =>
    let placed : PlacedNote := ⟨encoder.bound, note⟩
    { encoder with
      scope := encoder.scope.record placed
      diagnostics := encoder.diagnostics ++ diagnostics [placed] }

/-- Takes notes into account, one after another. -/
def recordEach : List Note → Encoding Unit
  | [] => return
  | note :: notes => do
    record note
    recordEach notes

def descend : Encoding Unit :=
  modify fun encoder => { encoder with depth := encoder.depth + 1 }

/-- There is no level above the first one. -/
def ascend : Encoding Unit :=
  fun encoder =>
    match encoder.depth with
    | 0 => none
    | depth + 1 => some ((), { encoder with depth })

def depth : Encoding Nat :=
  return (← get).depth

/-- A step that is taken one level deeper. -/
def deeper (step : Encoding α) : Encoding α := do
  descend
  let value ← step
  ascend
  return value

/-- A step that is taken inside a block. -/
def inBlock (block : BlockKind) (step : Encoding α) : Encoding α := do
  let previous := (← get).block
  modify ({ · with block })
  let value ← step
  modify ({ · with block := previous })
  return value

/-- A step that is taken inside a declaration. -/
def inDeclaration (step : Encoding α) : Encoding α := do
  let previous := (← get).initializing
  modify ({ · with initializing := true })
  let value ← step
  modify ({ · with initializing := previous })
  return value

/-- A step that is taken inside a function: its names are bound until the step is over. -/
def inFunction (names : List String) (step : Encoding α) : Encoding α := do
  modify ({ · with bound := names })
  let value ← inBlock .function step
  modify ({ · with bound := [] })
  return value

/-- The text without the line break at its end. -/
def dropBreak (code : String) : String :=
  if code.toList.getLast? = some '\n' then String.ofList code.toList.dropLast else code

/-- The statements of a body, each with its line break, as a body. -/
def body (statements : Encoding String) : Encoding String :=
  deeper (dropBreak <$> statements)

/-- The operator between operands that have been emitted. -/
def binary (op : BinaryOp) (left right : String) : Encoding String := do
  if startsLiteral left && startsLiteral right then
    return left ++ " " ++ op.spelling ++ " " ++ right
  else if startsLiteral left then
    record (.mention op.method)
    return apply op.method [left, right]
  else if op = .member then
    return left ++ "." ++ right
  else
    return method left op.method [right]

/-- The combinator on an operand that has been emitted. -/
def unary (name operand : String) : Encoding String := do
  if startsLiteral operand then
    record (.mention name)
    return apply name [operand]
  else
    return method operand name []

/-- The call with arguments that have been emitted. -/
def call (name : String) (args : List String) : Encoding String := do
  match sampleChain? name args with
  | some chain => return chain
  | none =>
    record (.mention name)
    return apply name args

def uniform (name type : String) : Encoding String := do
  record (.declare name)
  if (← get).options.reference then
    record (.mention "reference")
    return "const " ++ name ++ " = " ++ apply "reference"
      [literal "value", literal type, "uniforms" ++ bracketed [literal name]]
  else
    match Form.resource? type with
    | some (constructor, className) =>
      record (.mention constructor)
      return "const " ++ name ++ " = " ++ apply constructor ["/* <" ++ className ++ "> */"]
    | none =>
      record (.mention "uniform")
      return "const " ++ name ++ " = " ++ apply "uniform" [literal type]

def varying (name type : String) : Encoding String := do
  record (.mention "varying")
  record (.mention type)
  record (.declare name)
  return "const " ++ name ++ " = " ++ apply "varying" [apply type [], literal name]

/-- A problem is reported, and the node has no text. -/
def leaveOut (diagnostic : Diagnostic) : Encoding String := do
  record (.report diagnostic)
  return ""

/-- A call of the library that leaves a loop, an iteration or the shader. -/
def control (name : String) : Encoding String := do
  record (.mention name)
  return apply name []

/-- An `else` link, with or without a condition. -/
def alternateLink (condition : Option String) (content : String) : Encoding String := do
  let body := thunk (← depth) content
  match condition with
  | some condition => return "." ++ apply "ElseIf" [condition, body]
  | none => return "." ++ apply "Else" [body]

def caseLink (labels : List String) (content : String) : Encoding String :=
  return "." ++ apply "Case" (labels ++ [thunk (← depth) content])

def defaultLink (content : String) : Encoding String :=
  return "." ++ apply "Default" [thunk (← depth) content]

/-- One link of a chain. -/
def link : Element String → String
  | .member text => "." ++ text
  | .index text =>
    if startsLiteral text then bracketed [text] else "." ++ apply "element" [text]

/-- One binding, with a value that has been emitted. -/
def binding (name type : String) (value : Option String) (isConverted mutable : Bool) : String :=
  let converted :=
    match value with
    | none => apply type []
    | some text => if isConverted then text else apply type [text]
  name ++ " = " ++ converted ++ if mutable then ".toVar()" else ""

/-- What stands in the block of a loop that does not count. -/
def loopContent (depth : Nat) (initial condition afterthought : Option String)
    (content : String) : String :=
  initial.elim "" (fun first => tabs depth ++ first ++ ";\n\n") ++ tabs depth ++
    apply "Loop" [condition.getD "true",
      thunk depth (content ++
        afterthought.elim "" fun last => "\n\n" ++ tabs (depth + 1) ++ last ++ ";")]

end Encoding

open Encoding (record recordEach depth deeper inBlock inDeclaration body)

mutual

/-- The text of a node. A node without a text has the stand-in. -/
def encode (node : Node) : Encoding String :=
  orUnknown <$> match node with
    | .number value kind =>
      if kind.isNarrow then do
        record (.mention kind.spelling)
        return apply kind.spelling [value]
      else return value
    | .string value => return literal value
    | .accessor property => do
      record (.mention property)
      return property
    | .chain object elements => do
      let code ← encode object
      encodeElements code elements
    | .operator op left right => do
      let left ← encode left
      let right ← encode right
      Encoding.binary op left right
    | .unary op (.number value kind) _ => do
      record (.mention kind.spelling)
      return apply kind.spelling [op.spelling ++ " " ++ value]
    | .unary op operand trailing => do
      let initializing := (← get).initializing
      let operand ← encode operand
      match Form.unaryMethod? op trailing initializing with
      | none => return operand
      | some name => Encoding.unary name operand
    | .ternary condition left right => do
      let condition ← encode condition
      let left ← encode left
      let right ← encode right
      record (.mention "select")
      return apply "select" [condition, left, right]
    | .call name args => do
      let args ← encodeAll args
      Encoding.call name args
    | .return value => do
      match ← encodeOptional value with
      | none => return "return"
      | some text => return "return " ++ text
    | .break => Encoding.control "Break"
    | .continue => Encoding.control "Continue"
    | .discard => Encoding.control "Discard"
    | .bindings declarators =>
      inDeclaration do
        let parts ← encodeDeclarators declarators
        recordEach ((declarators.map Declarator.type).reverse.map Note.mention)
        return "const " ++ join parts
    | .uniform name type => Encoding.uniform name type
    | .varying name type => Encoding.varying name type
    | .function declaration => Encoding.leaveOut (.nestedFunction declaration.name)
    | .conditional condition statements alternates => do
      let condition ← encode condition
      let content ← body (encodeStatements none "" statements)
      let code := apply "If" [condition, thunk (← depth) content]
      let code ← encodeAlternates code alternates
      record (.require "If")
      return code
    | .switch discriminant cases => do
      let discriminant ← encode discriminant
      let code ← deeper do
        let code := apply "Switch" [discriminant] ++ "\n" ++ tabs (← depth)
        inBlock .case (encodeCases [] code cases)
      record (.require "Switch")
      return code
    | .loop initial condition afterthought statements =>
      match Counting.ofLoop? initial condition afterthought with
      | some counting => do
        let start ← encodeStart initial
        let limit ← encodeRight condition
        let update ← (
          match counting.update with
          | .increment => return .increment
          | .decrement => return .decrement
          | .step _ => .step <$> encodeRight afterthought
          | .assign _ => .assign <$> encodeAssignment afterthought)
        let content ← inBlock .loop (body (encodeStatements none "" statements))
        record (.require "Loop")
        let texts : Counting String :=
          ⟨counting.name, counting.type, start, counting.comparison, limit, update⟩
        return texts.text (← depth) content
      | none => do
        let initial ← encodeOptional initial
        let condition ← encodeOptional condition
        let afterthought ← encodeOptional afterthought
        let content ← deeper do
          let content ← inBlock .loop (body (encodeStatements none "" statements))
          return Encoding.loopContent (← depth) initial condition afterthought content
        record (.require "Loop")
        return block (← depth) content
    | .unknown => Encoding.leaveOut .unknownNode

/-- The text of a node that may be absent. -/
def encodeOptional : Option Node → Encoding (Option String)
  | none => return none
  | some node => some <$> encode node

def encodeAll : List Node → Encoding (List String)
  | [] => return []
  | node :: nodes => do
    let text ← encode node
    let texts ← encodeAll nodes
    return text :: texts

/-- A chain goes on from the code before it. -/
def encodeElements (code : String) : List (Element Node) → Encoding String
  | [] => return code
  | .member value :: elements => do
    let text ← encode value
    encodeElements (code ++ Encoding.link (.member text)) elements
  | .index value :: elements => do
    let text ← encode value
    encodeElements (code ++ Encoding.link (.index text)) elements

def encodeDeclarators : List (Declarator Node) → Encoding (List String)
  | [] => return []
  | ⟨name, type, value, mutable⟩ :: declarators => do
    let text ← encodeOptional value
    let isConverted := value.any (Node.isCallOf type)
    let texts ← encodeDeclarators declarators
    return Encoding.binding name type text isConverted mutable :: texts

/-- The statements of a body go on from the code before them. Whether a semicolon is needed shows in
the code so far. -/
def encodeStatements (previous : Option Node) (code : String) : List Node → Encoding String
  | [] => return code
  | node :: nodes => do
    if Body.isDropped ((← get).block = .case) node then encodeStatements previous code nodes
    else
      let indent := tabs (← depth)
      let text ← encode node
      let code := code ++ (Body.gap previous node ++ indent ++ text)
      encodeStatements (some node) (code ++ Body.terminator code ++ "\n") nodes

/-- A chain of `else` links; each body is looked at before its condition. -/
def encodeAlternates (code : String) : List (Branch Node) → Encoding String
  | [] => return code
  | ⟨condition, statements⟩ :: branches => do
    let content ← body (encodeStatements none "" statements)
    let condition ← encodeOptional condition
    let link ← Encoding.alternateLink condition content
    encodeAlternates (code ++ link) branches

/-- The chain of a switch. Labels wait for the next body. -/
def encodeCases (labels : List String) (code : String) : List (Branch Node) → Encoding String
  | [] => do
    if labels.isEmpty then return code
    else
      record (.report (.unterminatedCases labels))
      let content ← body (return "")
      let link ← Encoding.caseLink labels content
      return code ++ link
  | ⟨none, statements⟩ :: branches => do
    let shared ← (
      if labels.isEmpty then return "" else do
        let content ← body (encodeStatements none "" statements)
        Encoding.caseLink labels content)
    let content ← body (encodeStatements none "" statements)
    let link ← Encoding.defaultLink content
    encodeCases [] (code ++ shared ++ link) branches
  | ⟨some condition, statements⟩ :: branches => do
    let label ← encode condition
    if statements.isEmpty then encodeCases (labels ++ [label]) code branches
    else
      let content ← body (encodeStatements none "" statements)
      let link ← Encoding.caseLink (labels ++ [label]) content
      encodeCases [] (code ++ link) branches

/-- The value that the counter of a counting loop starts with. -/
def encodeStart : Option Node → Encoding String
  | some (.bindings [⟨_, _, some start, _⟩]) => encode start
  | _ => return ""

/-- The right operand of an operator. -/
def encodeRight : Option Node → Encoding String
  | some (.operator _ _ right) => encode right
  | _ => return ""

/-- An assignment. -/
def encodeAssignment : Option Node → Encoding String
  | some node => encode node
  | none => return ""

end

/-- The body of these statements. -/
def encodeBody (nodes : List Node) : Encoding String :=
  body (encodeStatements none "" nodes)

/-- The declaration of the constant that holds a function, at the given depth. -/
def FunctionDecl.constantAt (function : FunctionDecl Node) (options : Options) (depth : Nat)
    (overload : Option Overload) (content : String) : String :=
  options.lead ++ "const " ++ function.constantName overload ++ " = /*#__PURE__*/ Fn( " ++
    callback function.inputList depth content ++ function.layoutText ++ " );\n"

/-- A function whose body has been emitted, and the dispatcher behind the last one of its name. -/
def FunctionDecl.declare (function : FunctionDecl Node) (options : Options) (depth : Nat)
    (overload : Option Overload) (content : String) : Encoding String := do
  let code := function.constantAt options depth overload content
  record (.require "Fn")
  record (.declare function.name)
  match overload with
  | none => return code
  | some overload =>
    if overload.isLast then
      record (.mention "overloadingFn")
      return code ++ "\n" ++ function.dispatcherText options overload.size
    else return code

/-- A top-level function, which stands at the given index. Its names are bound in its body only. -/
def encodeFunction (function : FunctionDecl Node) (index : Nat) : Encoding String := do
  let content ← Encoding.inFunction function.boundNames (encodeBody function.statements)
  let encoder ← get
  function.declare encoder.options encoder.depth
    (encoder.overloads.member? function.name index) content

/-! ## Documents -/

namespace Overloads

/-- The indices of the functions of this name, where the first node has the given index. -/
def places (name : String) : (index : Nat) → List Node → List Nat
  | _, [] => []
  | index, node :: nodes =>
    (if name ∈ functionNames [node] then [index] else []) ++ places name (index + 1) nodes

/-- The table for the statements of a program: names that only one function has are left out. -/
def ofNodes (nodes : List Node) : Overloads :=
  ((functionNames nodes).eraseDups.filter fun name => 1 < (places name 0 nodes).length).map
    fun name => (name, places name 0 nodes)

end Overloads

/-- A top-level statement, with its line end. -/
def encodeSection (index : Nat) : Node → Encoding String
  | .function function => encodeFunction function index
  | node => do
    let text ← encode node
    return text ++ ";\n"

/-- The top-level statements go on from the code before them. -/
def encodeSections (previous : Option Node) (index : Nat) (code : String) :
    List Node → Encoding String
  | [] => return code
  | node :: nodes => do
    let indent := tabs (← Encoding.depth)
    let text ← encodeSection index node
    encodeSections (some node) (index + 1)
      (code ++ (Body.gap previous node ++ indent ++ text)) nodes

/-- The encoder that has found nothing yet. -/
def Encoder.new (options : Options) (overloads : Overloads) : Encoder where
  options
  scope := .empty
  bound := []
  overloads
  depth := 0
  block := .module
  initializing := false
  diagnostics := []

namespace Program

/-- The statements of a closure stand one level deeper. -/
def encodeBody (program : Program) (options : Options) : Encoding String := do
  if options.closure then Encoding.descend
  encodeSections none 0 "\n" program.body

/-- The document that the encoder writes. -/
def encode (program : Program) (options : Options) : Option Document := do
  let (body, encoder) ← program.encodeBody options (.new options (.ofNodes program.body))
  return ⟨options, encoder.scope, body, encoder.diagnostics⟩

end Program

end ShaderScript
