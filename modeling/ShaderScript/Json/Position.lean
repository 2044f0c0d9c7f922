/-!
# Places in a text

A place is given by the bytes before it: its line counts their line breaks, its column the bytes
after the last one.
-/

namespace ShaderScript.Json

structure Position where
  line : Nat
  column : Nat
deriving DecidableEq

namespace Position

/-- The beginning of a text. -/
def start : Position :=
  ⟨1, 0⟩

/-- The place one byte further. -/
def next (position : Position) (byte : UInt8) : Position :=
  if byte = 10 then ⟨position.line + 1, 0⟩ else ⟨position.line, position.column + 1⟩

/-- The place after the given bytes. -/
def after (bytes : List UInt8) : Position :=
  bytes.foldl next start

/-- The place in the text beyond which `unread` bytes are left. -/
def before (text : String) (unread : Nat) : Position :=
  after (text.toUTF8.extract 0 (text.utf8ByteSize - unread)).data.toList

end Position

end ShaderScript.Json
