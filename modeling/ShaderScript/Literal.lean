/-!
# Literals

The kinds of numeric literal, and the test that tells generated text which starts like a literal
from text which starts like an expression on library values.
-/

namespace ShaderScript

/-- Declared kind of a numeric literal. -/
inductive NumberKind where
  | float
  | int
  | uint
deriving DecidableEq

namespace NumberKind

/-- The name of the kind, which is also the library's conversion to it. -/
def spelling : NumberKind → String
  | float => "float"
  | int => "int"
  | uint => "uint"

/-- Every kind of number. -/
def all : List NumberKind :=
  [.float, .int, .uint]

def ofSpelling? (spelling : String) : Option NumberKind :=
  all.find? fun kind => kind.spelling == spelling

/-- A narrow literal is wrapped in its conversion when it is emitted. -/
def isNarrow (kind : NumberKind) : Bool :=
  kind != float

theorem ofSpelling?_spelling (kind : NumberKind) : ofSpelling? kind.spelling = some kind := by
  cases kind <;> decide

end NumberKind

/-- The characters start with a digit, or with a point and a digit. -/
def startsNumeral : List Char → Bool
  | '.' :: c :: _ => c.isDigit
  | c :: _ => c.isDigit
  | [] => false

/-- The text starts with a boolean or with a numeral, which a minus sign may precede. Only the
start is looked at, so an infix form of literals such as `2 + 3` counts as well. -/
def startsLiteral (text : String) : Bool :=
  let chars := text.toList
  "true".toList.isPrefixOf chars || "false".toList.isPrefixOf chars ||
    match chars with
    | '-' :: rest => startsNumeral rest
    | _ => startsNumeral chars

end ShaderScript
