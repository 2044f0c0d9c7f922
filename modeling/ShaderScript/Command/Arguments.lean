import ShaderScript.Emit.Options

/-!
# Command line arguments

A command is followed by its settings in any order. A setting with a value takes it from the same
argument, after `=` or after a one-letter name, or from the next argument. A value is looked at only
when the argument after it has been recognised, or when the arguments end; so an argument that is
not recognised is reported first. After `--` every argument is a file.
-/

namespace ShaderScript

inductive Command where
  /-- Generates the document of a program, to the given place or to standard output. -/
  | emit (file : String) (options : Options) (output : Option String)
  /-- Lists the library names, or those that start with the given text. -/
  | symbols (filter : Option String)
deriving DecidableEq

/-- Why arguments are not run as a command. -/
inductive UsageError where
  /-- There is no argument at all. -/
  | nothingGiven
  | helpWanted
  | versionWanted
  | unknownCommand
  | missingFile
  /-- An unknown setting, or a file too many. -/
  | unknownArgument
  /-- A value is missing, or is empty and must not be. -/
  | invalidValue
  | repeatedSetting
  /-- A value is given to a setting that takes none. -/
  | unexpectedValue
deriving DecidableEq

/-- What an argument can set. -/
inductive Setting where
  | file
  | iife
  | reference
  | revision
  | output
  | filter
deriving DecidableEq

namespace Setting

def isFlag : Setting → Bool
  | iife | reference => true
  | _ => false

/-- The name of a file must not be empty. -/
def isPath : Setting → Bool
  | file | output => true
  | _ => false

end Setting

/-- The settings of a command. -/
structure Grammar where
  long : List (String × Setting)
  short : List (Char × Setting)
  takesFile : Bool

namespace Grammar

def emit : Grammar where
  long := [("iife", .iife), ("reference", .reference), ("revision", .revision),
    ("output", .output)]
  short := [('o', .output)]
  takesFile := true

def symbols : Grammar where
  long := [("filter", .filter)]
  short := []
  takesFile := false

end Grammar

namespace Arguments

/-- What has been read so far. -/
structure State where
  /-- The settings that are complete, in order. -/
  given : List (Setting × String)
  /-- A setting whose value is still to come, or is still to be looked at. -/
  pending : Option (Setting × Option String)
  fileSeen : Bool
  /-- All further arguments are files. -/
  filesOnly : Bool

namespace State

def start : State :=
  ⟨[], none, false, false⟩

def value? (state : State) (setting : Setting) : Option String :=
  (state.given.find? fun entry => entry.1 == setting).map Prod.snd

/-- Takes a setting with its value. -/
def accept (state : State) (setting : Setting) (value : String) : Except UsageError State :=
  if (state.value? setting).isSome then .error .repeatedSetting
  else if setting.isPath && value.isEmpty then .error .invalidValue
  else .ok { state with given := state.given ++ [(setting, value)] }

/-- Takes the pending setting. -/
def settle (state : State) : Except UsageError State :=
  match state.pending with
  | none => .ok state
  | some (_, none) => .error .invalidValue
  | some (setting, some value) => { state with pending := none }.accept setting value

/-- Takes a setting that has been recognised, with the value that came with it. -/
def take (state : State) (setting : Setting) (attached : Option String) :
    Except UsageError State :=
  match attached with
  | some value =>
    if setting.isFlag then .error .unexpectedValue
    else do
      let state ← state.settle
      state.accept setting value
  | none => do
    let state ← state.settle
    if setting.isFlag then state.accept setting ""
    else .ok { state with pending := some (setting, none) }

end State

/-- Splits an argument at its first `=`. -/
def splitValue (text : List Char) : String × Option String :=
  let name := String.ofList (text.takeWhile (· != '='))
  match text.dropWhile (· != '=') with
  | [] => (name, none)
  | _ :: value => (name, some (String.ofList value))

/-- The value that directly follows a one-letter name. -/
def attachedValue : List Char → Option String
  | [] => none
  | '=' :: value => some (String.ofList value)
  | value => some (String.ofList value)

/-- Reads an argument after its two dashes. -/
def readLong (grammar : Grammar) (state : State) (text : List Char) : Except UsageError State :=
  let (name, attached) := splitValue text
  if name = "help" then
    if attached.isSome then .error .unexpectedValue
    else do
      let _ ← state.settle
      .error .helpWanted
  else
    match grammar.long.lookup name with
    | none => .error .unknownArgument
    | some setting => state.take setting attached

/-- Reads an argument after its single dash. -/
def readShort (grammar : Grammar) (state : State) (letter : Char) (text : List Char) :
    Except UsageError State :=
  if letter = 'h' then do
    let _ ← state.settle
    .error .helpWanted
  else
    match grammar.short.lookup letter with
    | none => .error .unknownArgument
    | some setting => state.take setting (attachedValue text)

/-- Reads a file. -/
def readFile (grammar : Grammar) (state : State) (name : String) : Except UsageError State :=
  if grammar.takesFile && !state.fileSeen then do
    let state ← state.settle
    .ok { state with pending := some (.file, some name), fileSeen := true }
  else .error .unknownArgument

/-- Reads one argument. -/
def readArgument (grammar : Grammar) (state : State) (argument : String) :
    Except UsageError State :=
  if state.filesOnly then readFile grammar state argument
  else
    match argument.toList with
    | ['-', '-'] => .ok { state with filesOnly := true }
    | '-' :: '-' :: text => readLong grammar state text
    | '-' :: letter :: text => readShort grammar state letter text
    | _ =>
      match state.pending with
      | some (setting, none) => .ok { state with pending := some (setting, some argument) }
      | _ => readFile grammar state argument

/-- Reads the arguments of a command. -/
def readAll (grammar : Grammar) (state : State) : List String → Except UsageError State
  | [] => state.settle
  | argument :: rest => do
    let state ← readArgument grammar state argument
    readAll grammar state rest

def parseEmit (arguments : List String) : Except UsageError Command := do
  let state ← readAll .emit .start arguments
  match state.value? .file with
  | none => .error .missingFile
  | some file =>
    let options : Options :=
      ⟨(state.value? .iife).isSome, (state.value? .reference).isSome,
        (state.value? .revision).getD Options.currentRevision⟩
    .ok (.emit file options (state.value? .output))

def parseSymbols (arguments : List String) : Except UsageError Command := do
  let state ← readAll .symbols .start arguments
  .ok (.symbols (state.value? .filter))

/-- The names that can follow the program name. -/
def commandNames : List String :=
  ["emit", "symbols", "help"]

/-- Help is given on at most one command. -/
def parseHelp : List String → UsageError
  | [] => .helpWanted
  | [name] => if name ∈ commandNames then .helpWanted else .unknownCommand
  | _ => .unknownCommand

/-- A setting before any command asks for help or for the version. -/
def parseLeadingLong (text : List Char) : UsageError :=
  let (name, attached) := splitValue text
  if name = "help" then if attached.isSome then .unexpectedValue else .helpWanted
  else if name = "version" then if attached.isSome then .unexpectedValue else .versionWanted
  else .unknownArgument

def parseLeadingShort (letter : Char) : UsageError :=
  if letter = 'h' then .helpWanted
  else if letter = 'V' then .versionWanted
  else .unknownArgument

/-- After leading dashes no command is recognised any more. -/
def parseAfterDashes : List String → UsageError
  | [] => .nothingGiven
  | name :: _ => if name ∈ commandNames then .unknownArgument else .unknownCommand

/-- The command that the arguments give. -/
def parse : List String → Except UsageError Command
  | [] => .error .nothingGiven
  | "emit" :: rest => parseEmit rest
  | "symbols" :: rest => parseSymbols rest
  | "help" :: rest => .error (parseHelp rest)
  | first :: rest =>
    match first.toList with
    | ['-', '-'] => .error (parseAfterDashes rest)
    | '-' :: '-' :: text => .error (parseLeadingLong text)
    | '-' :: letter :: _ => .error (parseLeadingShort letter)
    | _ => .error .unknownCommand

end Arguments

end ShaderScript
