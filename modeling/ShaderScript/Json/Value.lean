import ShaderScript.Decimal

/-!
# JSON values

Objects keep their members in the order of the text, repeated keys included: what a repeated key
means is for the reader of a record to say.
-/

namespace ShaderScript.Json

/-- A number is an integer if its text is one and it fits 64 bits, and a decimal otherwise. -/
inductive Number where
  | integer (value : Int)
  | decimal (value : Decimal)
deriving DecidableEq

inductive Value where
  | null
  | bool (value : Bool)
  | num (value : Number)
  | str (value : String)
  | arr (items : List Value)
  | obj (members : List (String × Value))

end ShaderScript.Json
