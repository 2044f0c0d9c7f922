/-!
# Options of a generated document
-/

namespace ShaderScript

structure Options where
  /-- The document is a function that returns its globals, and not a module that exports them. -/
  closure : Bool
  /-- Uniforms are bound to an outside store, and not constructed. -/
  reference : Bool
  /-- The library revision that the first line names. -/
  revision : String
deriving DecidableEq

namespace Options

/-- The library revision that documents are generated for. -/
def currentRevision : String :=
  "170"

/-- A module with uniforms of its own. -/
def default : Options :=
  ⟨false, false, currentRevision⟩

/-- The depth of the top-level statements. -/
def depth (options : Options) : Nat :=
  if options.closure then 1 else 0

/-- The word before a top-level declaration of a function. -/
def lead (options : Options) : String :=
  if options.closure then "" else "export "

end Options

end ShaderScript
