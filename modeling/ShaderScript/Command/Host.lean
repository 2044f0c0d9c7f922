import ShaderScript.Command.Disk
import ShaderScript.Emit.Diagnostic

/-!
# What a command can do to the system

A command reaches files and streams only through a `Host`. The program runs on the operations of the
operating system; on the operations of a `World` the same command is a function, whose effects can
be looked at one after the other.
-/

namespace ShaderScript

/-- What is written to standard error. -/
inductive Notice where
  /-- A problem found in a program. -/
  | warning (diagnostic : Diagnostic)
  | text (text : String)
deriving DecidableEq

/-- The operations that a command is made of. -/
structure Host (m : Type → Type) where
  /-- The number of bytes of the file at a path. -/
  size : String → m (Except OsError Nat)
  /-- The bytes of the file at a path. -/
  read : String → m (Except OsError ByteArray)
  /-- Writes a text to the file at a path. -/
  write : String → String → m (Except OsError Unit)
  /-- Writes a text to standard output. -/
  print : String → m (Except OsError Unit)
  notify : Notice → m Unit

/-- A stream that takes bytes, until it gives way. -/
structure Stream where
  /-- The bytes that it has taken. -/
  taken : ByteArray
  /-- How many more bytes it takes, and the error after that; without a limit, it takes them all. -/
  limit? : Option (Nat × OsError)

namespace Stream

def empty : Stream :=
  ⟨.empty, none⟩

/-- The text fits into what the stream still takes. -/
def Takes (stream : Stream) (text : String) : Prop :=
  ∀ limit ∈ stream.limit?, text.toUTF8.size ≤ limit.1

/-- Writes a text. If it does not fit, then its first bytes have been taken when the write fails. -/
def write (stream : Stream) (text : String) : Except OsError Unit × Stream :=
  match stream.limit? with
  | none => (.ok (), ⟨stream.taken ++ text.toUTF8, none⟩)
  | some (room, error) =>
    if text.toUTF8.size ≤ room then
      (.ok (), ⟨stream.taken ++ text.toUTF8, some (room - text.toUTF8.size, error)⟩)
    else (.error error, ⟨stream.taken ++ text.toUTF8.extract 0 room, some (0, error)⟩)

end Stream

/-- All that a command can read or change. Standard error takes everything. -/
structure World where
  disk : Disk
  stdout : Stream
  stderr : List Notice

namespace World

/-- Nothing has been written yet, and standard output takes everything. -/
def start (disk : Disk) : World :=
  ⟨disk, .empty, []⟩

def size (world : World) (path : String) : Except OsError Nat :=
  (world.disk.open? path).map Entry.size

def read (world : World) (path : String) : Except OsError ByteArray := do
  match ← world.disk.open? path with
  | .file file => .ok file.content
  | .directory => .error .isDirectory

def write (world : World) (path text : String) : Except OsError Unit × World :=
  match world.disk.write path (.ofText text) with
  | .ok disk => (.ok (), { world with disk })
  | .error error => (.error error, world)

def print (world : World) (text : String) : Except OsError Unit × World :=
  let (result, stdout) := world.stdout.write text
  (result, { world with stdout })

def notify (world : World) (notice : Notice) : World :=
  { world with stderr := world.stderr ++ [notice] }

/-- The operations of a world. -/
def host : Host (StateM World) where
  size path := do return (← get).size path
  read path := do return (← get).read path
  write path text := modifyGet fun world => world.write path text
  print text := modifyGet fun world => world.print text
  notify notice := modify fun world => world.notify notice

end World

end ShaderScript
