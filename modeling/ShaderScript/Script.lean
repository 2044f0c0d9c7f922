/-!
# The text of the target language

The few forms that generated text is put together from. Parentheses, braces and brackets are padded
with blanks throughout.
-/

namespace ShaderScript.Script

/-- What stands in place of a node that has no text. -/
def unknownStatement : String :=
  "/* unknown statement */"

/-- A text, or the stand-in if it is empty. -/
def orUnknown (text : String) : String :=
  if text.isEmpty then unknownStatement else text

/-- The indentation at the given depth. -/
def tabs (depth : Nat) : String :=
  String.ofList (List.replicate depth '\t')

/-- A list with commas between its parts. -/
def join (parts : List String) : String :=
  ", ".intercalate parts

/-- A call. -/
def apply (name : String) : List String → String
  | [] => name ++ "()"
  | args => name ++ "( " ++ join args ++ " )"

/-- A method call. -/
def method (object name : String) (args : List String) : String :=
  object ++ "." ++ apply name args

/-- A text literal. -/
def literal (text : String) : String :=
  "'" ++ text ++ "'"

/-- An object with the given entries, or a pattern with the given names. -/
def braced (entries : List String) : String :=
  "\x7b " ++ join entries ++ " \x7d"

/-- A list in square brackets. -/
def bracketed (items : List String) : String :=
  "[ " ++ join items ++ " ]"

/-- An entry of an object. -/
def entry (key value : String) : String :=
  key ++ ": " ++ value

/-- A block that closes at the given depth. -/
def block (depth : Nat) (content : String) : String :=
  "\x7b\n\n" ++ content ++ "\n\n" ++ tabs depth ++ "\x7d"

/-- A function that takes `params` and runs `body`. -/
def callback (params : String) (depth : Nat) (body : String) : String :=
  params ++ " => " ++ block depth body

/-- A function of no parameters. -/
def thunk (depth : Nat) (body : String) : String :=
  callback "()" depth body

end ShaderScript.Script
