/-!
# Files and directories

The files that a command can see: those below the working directory. A file may end in a hole,
which reads as zero bytes and takes no room.
-/

namespace ShaderScript

/-- An error of the operating system. -/
structure OsError where
  code : Nat
  text : String
deriving DecidableEq

namespace OsError

def noSuchFile : OsError :=
  ⟨2, "No such file or directory"⟩

def notDirectory : OsError :=
  ⟨20, "Not a directory"⟩

def isDirectory : OsError :=
  ⟨21, "Is a directory"⟩

def message (error : OsError) : String :=
  error.text ++ " (os error " ++ toString error.code ++ ")"

end OsError

structure File where
  bytes : ByteArray
  /-- The number of zero bytes after `bytes`. -/
  hole : Nat

namespace File

theorem eq_iff {left right : File} :
    left.bytes.data = right.bytes.data ∧ left.hole = right.hole ↔ left = right := by
  obtain ⟨⟨bytes⟩, hole⟩ := left
  obtain ⟨⟨others⟩, gap⟩ := right
  simp

instance : DecidableEq File :=
  fun _ _ => decidable_of_decidable_of_iff eq_iff

def ofText (text : String) : File :=
  ⟨text.toUTF8, 0⟩

def size (file : File) : Nat :=
  file.bytes.size + file.hole

/-- The bytes of the file, the hole written out. -/
def content (file : File) : ByteArray :=
  file.hole.repeat (·.push 0) file.bytes

/-- The text of the file, if it is UTF-8. -/
def text? (file : File) : Option String :=
  String.fromUTF8? file.content

end File

inductive Entry where
  | file (file : File)
  | directory
deriving DecidableEq

/-- How much room the entry takes; what a directory takes does not matter here. -/
def Entry.size : Entry → Nat
  | .file content => content.size
  | .directory => 0

/-- A place, by the steps that lead there from the working directory. Steps out of it stand in
front, and so does the root of the file system. -/
abbrev Location := List String

namespace Location

/-- The root of the file system. -/
def root : Location :=
  ["/"]

/-- The place lies on the way out of the working directory. Such places are directories of which
nothing else is known. -/
def isOutside (location : Location) : Bool :=
  location == root || location.all (· == "..")

/-- One step further. -/
def enter (location : Location) (step : String) : Location :=
  if step = "." then location
  else if step = ".." then
    if location == root then root
    else if location.isOutside then location ++ [".."]
    else location.dropLast
  else location ++ [step]

end Location

/-- A path as it is written. -/
structure Path where
  start : Location
  steps : List String
  /-- The path ends like that of a directory. -/
  directory : Bool
deriving DecidableEq

namespace Path

/-- The parts of a text between its slashes. -/
def split : List Char → List (List Char)
  | [] => [[]]
  | c :: rest =>
    if c = '/' then [] :: split rest
    else
      match split rest with
      | [] => [[c]]
      | part :: parts => (c :: part) :: parts

def ofText (text : String) : Path :=
  let parts := (split text.toList).map String.ofList
  let last := (parts.getLast?).getD ""
  { start := if text.toList.head? == some '/' then Location.root else []
    steps := parts.filter fun part => !part.isEmpty
    directory := last.isEmpty || last == "." || last == ".." }

end Path

/-- The files and directories that are known. -/
structure Disk where
  entries : List (Location × Entry)

namespace Disk

def empty : Disk :=
  ⟨[]⟩

/-- What stands at a place. -/
def entry? (disk : Disk) (location : Location) : Option Entry :=
  if location.isOutside then some .directory else disk.entries.lookup location

/-- Puts something at a place, instead of what is there. -/
def put (disk : Disk) (location : Location) (entry : Entry) : Disk :=
  if (disk.entries.lookup location).isSome then
    ⟨disk.entries.map fun known => if known.1 == location then (location, entry) else known⟩
  else ⟨disk.entries ++ [(location, entry)]⟩

/-- Makes the directory at `location ++ steps`, and those on the way from `location`. -/
def makeDirectory (disk : Disk) (location : Location) : List String → Disk
  | [] => disk
  | step :: steps =>
    let next := location.enter step
    let disk := if (disk.entry? next).isSome then disk else disk.put next .directory
    disk.makeDirectory next steps

/-- The place that the steps lead to. Every step but the last must lead to a directory. -/
def locate (disk : Disk) : Location → List String → Except OsError Location
  | location, [] => .ok location
  | location, [last] => .ok (location.enter last)
  | location, step :: steps =>
    let next := location.enter step
    match disk.entry? next with
    | none => .error .noSuchFile
    | some (.file _) => .error .notDirectory
    | some .directory => disk.locate next steps

/-- The place that a path leads to. -/
def find (disk : Disk) (path : Path) : Except OsError Location :=
  if path.start.isEmpty && path.steps.isEmpty then .error .noSuchFile
  else disk.locate path.start path.steps

/-- What stands at the end of a path. -/
def open? (disk : Disk) (text : String) : Except OsError Entry := do
  let path := Path.ofText text
  let location ← disk.find path
  match disk.entry? location with
  | none => .error .noSuchFile
  | some .directory => .ok .directory
  | some (.file file) => if path.directory then .error .notDirectory else .ok (.file file)

/-- Writes a file. Its directory must be there, and the path must not end like that of a
directory, whatever it leads to. -/
def write (disk : Disk) (text : String) (file : File) : Except OsError Disk := do
  let path := Path.ofText text
  let location ← disk.find path
  if path.directory || disk.entry? location == some .directory then .error .isDirectory
  else .ok (disk.put location (.file file))

end Disk

end ShaderScript
