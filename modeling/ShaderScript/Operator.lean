/-!
# Operators of the shading language

Binary and unary operators, their spelling in shader source, and the combinator of the target
library that each lowers to. `+` and `-` are spelled alike in both arities; the tree decides which
one is meant. Member access is an operator whose combinator is the joining dot itself.
-/

namespace ShaderScript

/-- What a binary operator is used for. -/
inductive Category where
  | assignment
  | arithmetic
  | comparison
  | logical
  | bitwise
  | shift
  | compoundAssignment
  | member
deriving DecidableEq

inductive BinaryOp where
  | assign
  | add
  | sub
  | mul
  | div
  | remainder
  | lessThan
  | greaterThan
  | lessThanEqual
  | greaterThanEqual
  | equal
  | notEqual
  | and
  | or
  | xor
  | bitAnd
  | bitOr
  | bitXor
  | shiftLeft
  | shiftRight
  | addAssign
  | subAssign
  | mulAssign
  | divAssign
  | remainderAssign
  | bitXorAssign
  | bitAndAssign
  | bitOrAssign
  | shiftLeftAssign
  | shiftRightAssign
  | member
deriving DecidableEq

namespace BinaryOp

/-- Every binary operator, grouped by category. -/
def all : List BinaryOp :=
  [.assign, .add, .sub, .mul, .div, .remainder,
    .lessThan, .greaterThan, .lessThanEqual, .greaterThanEqual, .equal, .notEqual,
    .and, .or, .xor, .bitAnd, .bitOr, .bitXor, .shiftLeft, .shiftRight,
    .addAssign, .subAssign, .mulAssign, .divAssign, .remainderAssign,
    .bitXorAssign, .bitAndAssign, .bitOrAssign, .shiftLeftAssign, .shiftRightAssign,
    .member]

/-- The operator as shader source writes it. -/
def spelling : BinaryOp → String
  | assign => "="
  | add => "+"
  | sub => "-"
  | mul => "*"
  | div => "/"
  | remainder => "%"
  | lessThan => "<"
  | greaterThan => ">"
  | lessThanEqual => "<="
  | greaterThanEqual => ">="
  | equal => "=="
  | notEqual => "!="
  | and => "&&"
  | or => "||"
  | xor => "^^"
  | bitAnd => "&"
  | bitOr => "|"
  | bitXor => "^"
  | shiftLeft => "<<"
  | shiftRight => ">>"
  | addAssign => "+="
  | subAssign => "-="
  | mulAssign => "*="
  | divAssign => "/="
  | remainderAssign => "%="
  | bitXorAssign => "^="
  | bitAndAssign => "&="
  | bitOrAssign => "|="
  | shiftLeftAssign => "<<="
  | shiftRightAssign => ">>="
  | member => "."

/-- The library combinator the operator lowers to, as a method or as a free function. -/
def method : BinaryOp → String
  | assign => "assign"
  | add => "add"
  | sub => "sub"
  | mul => "mul"
  | div => "div"
  | remainder => "remainder"
  | lessThan => "lessThan"
  | greaterThan => "greaterThan"
  | lessThanEqual => "lessThanEqual"
  | greaterThanEqual => "greaterThanEqual"
  | equal => "equal"
  | notEqual => "notEqual"
  | and => "and"
  | or => "or"
  | xor => "xor"
  | bitAnd => "bitAnd"
  | bitOr => "bitOr"
  | bitXor => "bitXor"
  | shiftLeft => "shiftLeft"
  | shiftRight => "shiftRight"
  | addAssign => "addAssign"
  | subAssign => "subAssign"
  | mulAssign => "mulAssign"
  | divAssign => "divAssign"
  | remainderAssign => "remainderAssign"
  | bitXorAssign => "bitXorAssign"
  | bitAndAssign => "bitAndAssign"
  | bitOrAssign => "bitOrAssign"
  | shiftLeftAssign => "shiftLeftAssign"
  | shiftRightAssign => "shiftRightAssign"
  | member => "."

def category : BinaryOp → Category
  | assign => .assignment
  | add | sub | mul | div | remainder => .arithmetic
  | lessThan | greaterThan | lessThanEqual | greaterThanEqual | equal | notEqual => .comparison
  | and | or | xor => .logical
  | bitAnd | bitOr | bitXor => .bitwise
  | shiftLeft | shiftRight => .shift
  | addAssign | subAssign | mulAssign | divAssign | remainderAssign
  | bitXorAssign | bitAndAssign | bitOrAssign | shiftLeftAssign | shiftRightAssign =>
    .compoundAssignment
  | member => .member

def isComparison (op : BinaryOp) : Bool :=
  op.category == .comparison

/-- The operator stores into its left operand. -/
def isAssignment (op : BinaryOp) : Bool :=
  op.category == .assignment || op.category == .compoundAssignment

/-- The operator with this spelling. -/
def ofSpelling? (spelling : String) : Option BinaryOp :=
  all.find? fun op => op.spelling == spelling

theorem ofSpelling?_spelling (op : BinaryOp) : ofSpelling? op.spelling = some op := by
  cases op <;> decide

end BinaryOp

inductive UnaryOp where
  | positive
  | negate
  | bitNot
  | not
  | increment
  | decrement
deriving DecidableEq

namespace UnaryOp

/-- Every unary operator. -/
def all : List UnaryOp :=
  [.positive, .negate, .bitNot, .not, .increment, .decrement]

/-- The operator as shader source writes it. -/
def spelling : UnaryOp → String
  | positive => "+"
  | negate => "-"
  | bitNot => "~"
  | not => "!"
  | increment => "++"
  | decrement => "--"

/-- The library combinator the operator lowers to. A plus sign has none: its operand stands for
itself. -/
def method? : UnaryOp → Option String
  | positive => none
  | negate => some "negate"
  | bitNot => some "bitNot"
  | not => some "not"
  | increment => some "increment"
  | decrement => some "decrement"

/-- The operator changes its operand by one. -/
def isStep (op : UnaryOp) : Bool :=
  op == increment || op == decrement

/-- The operator with this spelling. -/
def ofSpelling? (spelling : String) : Option UnaryOp :=
  all.find? fun op => op.spelling == spelling

theorem ofSpelling?_spelling (op : UnaryOp) : ofSpelling? op.spelling = some op := by
  cases op <;> decide

end UnaryOp

end ShaderScript
