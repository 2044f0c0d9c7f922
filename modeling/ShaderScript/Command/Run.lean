import ShaderScript.Command.Arguments
import ShaderScript.Command.Host
import ShaderScript.Emit.Document
import ShaderScript.Wire.Load

/-!
# Running commands

A command reads at most one file, shows the problems that it finds in the program, and then writes
one document. The problems are warnings: they neither change the document nor the exit code.
-/

namespace ShaderScript

/-- The largest file that is read. -/
def maxSourceSize : Nat :=
  104857600

/-- Why a command fails. -/
inductive Failure where
  | inaccessible (path : String) (error : OsError)
  | tooLarge (path : String) (size : Nat)
  | unreadable (path : String) (error : OsError)
  | notText (path : String)
  | invalid (path : String) (error : LoadError)
  | unwritable (path : String) (error : OsError)
  /-- Standard output does not take the document. -/
  | unprintable (error : OsError)
  /-- Standard output does not take a line of the symbol listing. -/
  | listingBroken (error : OsError)
deriving DecidableEq

namespace Failure

def message : Failure → String
  | inaccessible path error => "Cannot access file '" ++ path ++ "': " ++ error.message
  | tooLarge path size =>
    "Input file '" ++ path ++ "' is too large (" ++ toString size ++ " bytes, max " ++
      toString maxSourceSize ++ " bytes)"
  | unreadable path error => "Error reading file '" ++ path ++ "': " ++ error.message
  | notText path => "Error reading file '" ++ path ++ "': stream did not contain valid UTF-8"
  | invalid path error => "Invalid AST in '" ++ path ++ "': " ++ error.message
  | unwritable path error => "Error writing '" ++ path ++ "': " ++ error.message
  | unprintable error => "Error writing to stdout: " ++ error.message
  | listingBroken error => "failed printing to stdout: " ++ error.message

/-- A listing that breaks off is not handled as an error of the command: the program is aborted. -/
def exitCode : Failure → Nat
  | listingBroken _ => 101
  | _ => 1

end Failure

/-- A line of the symbol listing: the name, padded to twenty places, and the kind. -/
def symbolLine (symbol : Symbol) : String :=
  symbol.name ++ String.ofList (List.replicate (20 - symbol.name.length) ' ') ++ " " ++
    symbol.kind.label ++ "\n"

section

variable {m : Type → Type} [Monad m]

/-- An operation of the system as a step of a command. -/
def attempt {α : Type} (failure : OsError → Failure) (operation : m (Except OsError α)) :
    ExceptT Failure m α :=
  ExceptT.adapt failure (ExceptT.mk operation)

/-- The text of the file at a path. The file is not read if it is too large. -/
def readSource (host : Host m) (path : String) : ExceptT Failure m String := do
  let size ← attempt (.inaccessible path) (host.size path)
  if maxSourceSize < size then throw (.tooLarge path size)
  else
    let bytes ← attempt (.unreadable path) (host.read path)
    match String.fromUTF8? bytes with
    | some text => return text
    | none => throw (.notText path)

def loadProgram (path text : String) : ExceptT Failure m Program :=
  match Program.load text with
  | .ok program => return program
  | .error error => throw (.invalid path error)

def showWarnings (host : Host m) (diagnostics : List Diagnostic) : ExceptT Failure m Unit :=
  ExceptT.lift (diagnostics.forM fun diagnostic => host.notify (.warning diagnostic))

/-- Writes a text to the file at a path, or to standard output. -/
def writeDocument (host : Host m) (text : String) : Option String → ExceptT Failure m Unit
  | none => attempt .unprintable (host.print text)
  | some path => attempt (.unwritable path) (host.write path text)

/-- Generates the document of the program in a file. -/
def emitFile (host : Host m) (file : String) (options : Options) (output : Option String) :
    ExceptT Failure m Unit := do
  let text ← readSource host file
  let program ← loadProgram file text
  let document := program.document options
  showWarnings host document.diagnostics
  writeDocument host document.render output

/-- Lists the symbols that start with the given text. -/
def listSymbols (host : Host m) (filter : Option String) : ExceptT Failure m Unit :=
  (Library.withStart (filter.getD "")).forM fun symbol =>
    attempt .listingBroken (host.print (symbolLine symbol))

def Command.run (host : Host m) : Command → ExceptT Failure m Unit
  | .emit file options output => emitFile host file options output
  | .symbols filter => listSymbols host filter

end

def version : String :=
  "0.1.0-alpha.1"

/-- The name and the version of the program. -/
def versionText : String :=
  "nodeshade " ++ version ++ "\n"

/-- A short reminder of the commands. -/
def usageText : String :=
  "Usage: nodeshade emit FILE [--iife] [--reference] [--revision REV] [-o OUT]\n" ++
    "       nodeshade symbols [--filter TEXT]\n"

/-- Runs the program with its arguments and gives the exit code, which is 2 if they are no command.
That the usage or the version cannot be printed is no failure. -/
def execute {m : Type → Type} [Monad m] (host : Host m) (arguments : List String) : m Nat := do
  match Arguments.parse arguments with
  | .error .versionWanted =>
    let _ ← host.print versionText
    return 0
  | .error .helpWanted =>
    let _ ← host.print usageText
    return 0
  | .error _ =>
    host.notify (.text usageText)
    return 2
  | .ok command =>
    match ← (command.run host).run with
    | .ok () => return 0
    | .error failure =>
      host.notify (.text (failure.message ++ "\n"))
      return failure.exitCode

/-- What a step of a command gives in a world, and the world after it. -/
def World.run {α : Type} (world : World) (step : ExceptT Failure (StateM World) α) :
    Except Failure α × World :=
  step.run.run world

/-- The exit code of the program, and the world after it has run. -/
def World.execute (world : World) (arguments : List String) : Nat × World :=
  (ShaderScript.execute World.host arguments).run world

end ShaderScript
