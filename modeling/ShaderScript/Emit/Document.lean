import ShaderScript.Emit.Function

/-!
# Documents

A document is the text of the top-level statements between a header, which imports library names,
and a footer, which a closure needs to return its globals.
-/

namespace ShaderScript

open Script

/-- A top-level statement: its text with its line end, and its notes. -/
structure Section where
  text : String
  notes : List PlacedNote

namespace Section

/-- The context of a top-level statement. -/
def context (options : Options) : Context :=
  ⟨options.reference, options.depth, false, false⟩

/-- A top-level function. The notes of its body are placed under the names that it binds. -/
def ofFunction (options : Options) (all earlier : List String) (function : FunctionDecl Node) :
    Section :=
  let overload := Overload.of? all earlier function.name
  let body := function.emitBody options
  ⟨function.text options overload body.text,
    PlacedNote.place function.boundNames body.notes ++
      PlacedNote.place [] (function.ownNotes overload)⟩

/-- A top-level statement; `earlier` are the functions before it, `all` those of the program. -/
def ofNode (options : Options) (all earlier : List String) : Node → Section
  | .function function => ofFunction options all earlier function
  | node =>
    let fragment := emit (context options) node
    ⟨fragment.text ++ ";\n", PlacedNote.place [] fragment.notes⟩

end Section

/-- The names of the functions among these statements. -/
def functionNames (nodes : List Node) : List String :=
  nodes.filterMap fun node =>
    match node with
    | .function function => some function.name
    | _ => none

/-- The top-level statements with the space before them. -/
def sections (options : Options) (all : List String) :
    (earlier : List String) → (previous : Option Node) → List Node → List Section
  | _, _, [] => []
  | earlier, previous, node :: rest =>
    let current := Section.ofNode options all earlier node
    { current with
      text := Body.gap previous node ++ tabs options.depth ++ current.text } ::
      sections options all (earlier ++ functionNames [node]) (some node) rest

/-- The module that library names are imported from. -/
def libraryModule : String :=
  "three/tsl"

structure Document where
  options : Options
  scope : Scope
  /-- The text between header and footer. -/
  body : String
  /-- The problems found, in the order of the text. -/
  diagnostics : List Diagnostic

namespace Document

/-- Where the document comes from, and the names it imports. -/
def header (document : Document) : String :=
  "// Three.js Transpiler r" ++ document.options.revision ++ "\n\n" ++
    if document.options.closure then
      "( function ( TSL, uniforms ) \x7b\n\n" ++
        if document.scope.imports.isEmpty then ""
        else "\tconst " ++ braced document.scope.imports ++ " = TSL;\n"
    else if document.scope.imports.isEmpty then ""
    else "import " ++ braced document.scope.imports ++ " from " ++ literal libraryModule ++ ";\n"

/-- A closure returns its globals. -/
def footer (document : Document) : String :=
  if document.options.closure then
    (if document.scope.globals.isEmpty then ""
      else "\treturn " ++ braced document.scope.globals ++ ";\n") ++
      "\n\x7d );"
  else ""

/-- The text of the document. -/
def render (document : Document) : String :=
  document.header ++ document.body ++ document.footer

end Document

namespace Program

/-- The top-level statements of a program. -/
def sections (program : Program) (options : Options) : List Section :=
  ShaderScript.sections options (functionNames program.body) [] none program.body

/-- The document of a program. -/
def document (program : Program) (options : Options) : Document :=
  let parts := program.sections options
  let notes := parts.flatMap Section.notes
  { options
    scope := Scope.empty.recordAll notes
    body := "\n" ++ String.join (parts.map Section.text)
    diagnostics := ShaderScript.diagnostics notes }

/-- The generated text of a program. -/
def generate (program : Program) (options : Options) : String :=
  (program.document options).render

end Program

end ShaderScript
