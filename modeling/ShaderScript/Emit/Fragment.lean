import ShaderScript.Emit.Diagnostic
import ShaderScript.Library

/-!
# Fragments of a document

Emitting a node gives a fragment: its text, and notes on what the text needs and declares. The text
never depends on the notes. They are gathered into the scope of the document afterwards, in the
order in which they were taken: the order of the imports shows it.
-/

namespace ShaderScript

/-- Something to remember about a piece of emitted text. -/
inductive Note where
  /-- The text mentions a name, which may be a name of the library. -/
  | mention (name : String)
  /-- The text is built with a name of the library. -/
  | require (name : String)
  /-- The text declares a global name. -/
  | declare (name : String)
  /-- A problem has been found. -/
  | report (diagnostic : Diagnostic)
deriving DecidableEq

structure Fragment where
  text : String
  notes : List Note

namespace Fragment

/-- Text without notes. -/
def plain (text : String) : Fragment :=
  ⟨text, []⟩

/-- The texts of several fragments. -/
def texts (fragments : List Fragment) : List String :=
  fragments.map Fragment.text

/-- The notes of several fragments, one after another. -/
def allNotes (fragments : List Fragment) : List Note :=
  fragments.flatMap Fragment.notes

end Fragment

/-! ## Scope -/

/-- A note together with the names that are bound where it was taken. -/
structure PlacedNote where
  bound : List String
  note : Note

namespace PlacedNote

/-- Notes taken where the given names are bound. -/
def place (bound : List String) (notes : List Note) : List PlacedNote :=
  notes.map (PlacedNote.mk bound)

end PlacedNote

/-- The names a document imports and declares, each once, in the order of their first notes. -/
structure Scope where
  imports : List String
  globals : List String
deriving DecidableEq

namespace Scope

def empty : Scope :=
  ⟨[], []⟩

/-- Appends a name that is not in the list. -/
def addName (names : List String) (name : String) : List String :=
  if name ∈ names then names else names ++ [name]

/-- The part of a name before its first point. -/
def rootName (name : String) : String :=
  String.ofList (name.toList.takeWhile (· != '.'))

/-- Names that are never imported, even if the library exports them. -/
def reserved : List String :=
  ["name"]

/-- A mention of this root imports it: the library has it, and no global name and no name bound
around the mention hides it. -/
def imports? (scope : Scope) (bound : List String) (root : String) : Bool :=
  Library.isSymbol root && root ∉ scope.globals && root ∉ bound && root ∉ reserved

/-- Takes one note into account. -/
def record (scope : Scope) (placed : PlacedNote) : Scope :=
  match placed.note with
  | .mention name =>
    let root := rootName name
    if scope.imports? placed.bound root then
      { scope with imports := addName scope.imports root }
    else scope
  | .require name => { scope with imports := addName scope.imports name }
  | .declare name => { scope with globals := addName scope.globals name }
  | .report _ => scope

/-- Takes notes into account, one after another. -/
def recordAll (scope : Scope) (placed : List PlacedNote) : Scope :=
  placed.foldl record scope

end Scope

/-- The problems among the notes. -/
def diagnostics (placed : List PlacedNote) : List Diagnostic :=
  placed.filterMap fun placed =>
    match placed.note with
    | .report diagnostic => some diagnostic
    | _ => none

end ShaderScript
