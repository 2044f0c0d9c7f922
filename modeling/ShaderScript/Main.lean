import ShaderScript.Command.Run

/-!
# The command line program

The program is `execute` on the operations of the operating system.
-/

namespace ShaderScript.Main

/-- The number of an error; some operations report its negative. -/
def errorNumber (code : UInt32) : Nat :=
  min code.toNat (-code).toNat

/-- The operating system's account of a failed operation. -/
def osError : IO.Error → OsError
  | .noFileOrDirectory .. => .noSuchFile
  | .inappropriateType _ code _ =>
    if errorNumber code = OsError.isDirectory.code then .isDirectory else .notDirectory
  | .permissionDenied _ code text => ⟨errorNumber code, text⟩
  | .resourceExhausted _ code text => ⟨errorNumber code, text⟩
  | .resourceVanished code text => ⟨errorNumber code, text⟩
  | .otherError code text => ⟨errorNumber code, text⟩
  | error => ⟨0, error.toString⟩

/-- The result of an operation, or the error it ends with. -/
def caught {α : Type} (operation : IO α) : IO (Except OsError α) := do
  try
    return .ok (← operation)
  catch error => return .error (osError error)

/-- The operations of the operating system. -/
def host : Host IO where
  size path := caught do
    let place := (← IO.currentDir) / path
    return (← place.metadata).byteSize.toNat
  read path := caught (IO.FS.readBinFile path)
  write path text := caught (IO.FS.writeFile path text)
  print text := caught do
    let stdout ← IO.getStdout
    stdout.putStr text
    stdout.flush
  notify
    | .warning diagnostic =>
      IO.eprintln (diagnostic.code ++ ": " ++ diagnostic.message ++ "\n  help: " ++ diagnostic.help)
    | .text text => IO.eprint text

end ShaderScript.Main

open ShaderScript in
def main (arguments : List String) : IO UInt32 := do
  let exitCode ← execute Main.host arguments
  return exitCode.toUInt32
