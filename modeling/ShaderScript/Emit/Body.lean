import ShaderScript.Emit.Form

/-!
# Bodies

A body is a list of statements, each on a line of its own. Statements that read as expressions stand
line by line; around the others, and before a `return`, a line is left blank.
-/

namespace ShaderScript.Body

open Script

/-- Whether a body belongs to a case of a switch: breaks are then left out of it. -/
def isDropped (inCase : Bool) : Node → Bool
  | .break => inCase
  | _ => false

/-- What goes between a statement and the one before it, beyond the line break. -/
def gap (previous : Option Node) (current : Node) : String :=
  match previous, current with
  | none, _ => ""
  | some _, .return _ => "\n"
  | some previous, current =>
    if previous.isExpressionLike && current.isExpressionLike then "" else "\n"

/-- A statement ends in a semicolon, unless its text ends in a brace. -/
def terminator (text : String) : String :=
  if text.toList.getLast? = some '\x7d' then "" else ";"

/-- The lines of a body, without the line breaks between them. -/
def lines (depth : Nat) : Option Node → List (Node × Fragment) → List String
  | _, [] => []
  | previous, (node, fragment) :: rest =>
    (gap previous node ++ tabs depth ++ fragment.text ++ terminator fragment.text) ::
      lines depth (some node) rest

/-- The body made of these statements and their fragments. -/
def assemble (depth : Nat) (inCase : Bool) (nodes : List Node) (fragments : List Fragment) :
    Fragment :=
  let kept := (nodes.zip fragments).filter fun (node, _) => !isDropped inCase node
  ⟨"\n".intercalate (lines depth none kept), Fragment.allNotes (kept.map Prod.snd)⟩

end ShaderScript.Body
