import ShaderScript.Script

/-!
# Problems found in a program

None of them stops the generation; each is a warning.
-/

namespace ShaderScript

inductive Diagnostic where
  /-- A node of an unknown kind. -/
  | unknownNode
  /-- A function inside another body. -/
  | nestedFunction (name : String)
  /-- Cases at the end of a switch that no body follows; their conditions as they are emitted. -/
  | unterminatedCases (conditions : List String)
deriving DecidableEq

namespace Diagnostic

def message : Diagnostic → String
  | unknownNode => "unrecognized node kind; emitted `" ++ Script.unknownStatement ++ "`"
  | nestedFunction name =>
    "function `" ++ name ++ "` is declared inside a body; emitted `" ++
      Script.unknownStatement ++ "`"
  | unterminatedCases conditions =>
    "switch case group [" ++ Script.join conditions ++ "] has no body and no following case"

def code : Diagnostic → String
  | unknownNode => "nodeshade::emit::unknown_node"
  | nestedFunction _ => "nodeshade::emit::nested_function"
  | unterminatedCases _ => "nodeshade::emit::unterminated_case_group"

/-- What to do about it. -/
def help : Diagnostic → String
  | unknownNode => "the front end produced a node kind the TSL emitter does not lower"
  | nestedFunction _ => "move the function to module scope"
  | unterminatedCases _ =>
    "every run of empty cases must end in a case with a body or in `default`"

end Diagnostic

end ShaderScript
