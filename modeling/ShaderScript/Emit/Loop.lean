import ShaderScript.Emit.Form

/-!
# Loops

A loop that declares one counter, compares it and steps it is emitted in the short form of the
library, which lists only what differs from its defaults. Any other loop runs a callback while its
condition holds, in a block of its own.
-/

namespace ShaderScript

/-- What a counting loop does to its counter after each run of the body. -/
inductive Update (ν : Type) where
  | increment
  | decrement
  /-- The counter changes by a step. -/
  | step (amount : ν)
  /-- An assignment to the counter. -/
  | assign (assignment : ν)

/-- A loop that counts. -/
structure Counting (ν : Type) where
  name : String
  type : String
  start : ν
  comparison : BinaryOp
  limit : ν
  update : Update ν

namespace Counting

/-- The step that the library can apply by itself: a name or a number to add or to subtract. -/
def isPlainStep (op : BinaryOp) (amount : Node) : Bool :=
  (op == .addAssign || op == .subAssign) &&
    match amount with
    | .accessor _ | .number .. => true
    | _ => false

/-- What an afterthought does to the counter, if that is all it does. -/
def update? (counter : String) : Node → Option (Update Node)
  | .unary op (.accessor name) _ =>
    if name = counter then
      match op with
      | .increment => some .increment
      | .decrement => some .decrement
      | _ => none
    else none
  | .operator op (.accessor name) amount =>
    if name = counter ∧ op.isAssignment then
      if isPlainStep op amount then some (.step amount)
      else some (.assign (.operator op (.accessor name) amount))
    else none
  | _ => none

/-- A comparison of the counter, with what it is compared to. -/
def comparison? (counter : String) : Node → Option (BinaryOp × Node)
  | .operator op (.accessor name) limit =>
    if name = counter ∧ op.isComparison then some (op, limit) else none
  | _ => none

/-- The loop as one that counts. -/
def ofLoop? (initial condition afterthought : Option Node) : Option (Counting Node) := do
  let initial ← initial
  let declarator ← initial.singleDeclarator?
  let start ← declarator.value
  let condition ← condition
  let (comparison, limit) ← comparison? declarator.name condition
  let afterthought ← afterthought
  let update ← update? declarator.name afterthought
  some ⟨declarator.name, declarator.type, start, comparison, limit, update⟩

open Script

/-- The entry for what happens to the counter; adding one is the default. -/
def updateEntry (name : String) : Update String → List String
  | .increment => []
  | .decrement => [entry "update" (literal UnaryOp.decrement.spelling)]
  | .step amount => [entry "update" amount]
  | .assign assignment => [entry "update" ("( " ++ braced [name] ++ " ) => " ++ assignment)]

/-- The entries of the configuration: start and end, and what is not `int i`, `<` and `i++`. -/
def config (counting : Counting String) : List String :=
  [entry "start" counting.start, entry "end" counting.limit] ++
    (if counting.name = "i" then [] else [entry "name" (literal counting.name)]) ++
    (if counting.type = "int" then [] else [entry "type" (literal counting.type)]) ++
    (if counting.comparison = .lessThan then []
      else [entry "condition" (literal counting.comparison.spelling)]) ++
    updateEntry counting.name counting.update

/-- The text of a counting loop with the given body. -/
def text (counting : Counting String) (depth : Nat) (body : String) : String :=
  apply "Loop" [braced counting.config,
    callback ("( " ++ braced [counting.name] ++ " )") depth body]

end Counting

namespace Update

variable {ν : Type}

/-- The part of an update that is emitted. -/
def operand? : Update ν → Option ν
  | .increment | .decrement => none
  | .step amount => some amount
  | .assign assignment => some assignment

def map {μ : Type} (f : ν → μ) : Update ν → Update μ
  | .increment => .increment
  | .decrement => .decrement
  | .step amount => .step (f amount)
  | .assign assignment => .assign (f assignment)

theorem operand?_map {μ : Type} (f : ν → μ) (update : Update ν) :
    (update.map f).operand? = update.operand?.map f := by
  cases update <;> rfl

end Update

namespace Form

open Script

/-- A counting loop, from the fragments of its parts. -/
def countingLoop (depth : Nat) (counting : Counting Fragment) (body : Fragment) : Fragment :=
  let texts : Counting String :=
    { name := counting.name
      type := counting.type
      start := counting.start.text
      comparison := counting.comparison
      limit := counting.limit.text
      update := counting.update.map Fragment.text }
  ⟨texts.text depth body.text,
    counting.start.notes ++ counting.limit.notes ++
      (counting.update.operand?.map Fragment.notes).getD [] ++ body.notes ++ [.require "Loop"]⟩

/-- A loop that runs while a condition holds. The afterthought ends the callback. The body stands two
levels below the loop. -/
def generalLoop (depth : Nat) (initial condition afterthought : Option Fragment)
    (body : Fragment) : Fragment :=
  let inner := depth + 1
  let setup :=
    match initial with
    | none => ""
    | some initial => tabs inner ++ initial.text ++ ";\n\n"
  let test := (condition.map Fragment.text).getD "true"
  let finish :=
    match afterthought with
    | none => ""
    | some afterthought => "\n\n" ++ tabs (inner + 1) ++ afterthought.text ++ ";"
  let notes (part : Option Fragment) : List Note := (part.map Fragment.notes).getD []
  ⟨block depth (setup ++ tabs inner ++ apply "Loop" [test, thunk inner (body.text ++ finish)]),
    notes initial ++ notes condition ++ notes afterthought ++ body.notes ++ [.require "Loop"]⟩

end Form

end ShaderScript
