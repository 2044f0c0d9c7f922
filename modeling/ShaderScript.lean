import ShaderScript.Operator
import ShaderScript.Literal
import ShaderScript.Sampling
import ShaderScript.Library
import ShaderScript.Node.Basic
import ShaderScript.Node.Build
import ShaderScript.Decimal
import ShaderScript.Decimal.Shortest
import ShaderScript.Text.Quoted
import ShaderScript.Json.Fault
import ShaderScript.Json.Position
import ShaderScript.Json.Token
import ShaderScript.Json.Reader
import ShaderScript.Json.Skip
import ShaderScript.Json.Writer
import ShaderScript.Wire.Decode
import ShaderScript.Wire.Encode
import ShaderScript.Wire.Load
import ShaderScript.Emit.Diagnostic
import ShaderScript.Emit.Form
import ShaderScript.Emit.Options
import ShaderScript.Emit.Body
import ShaderScript.Emit.Loop
import ShaderScript.Emit.Node
import ShaderScript.Emit.Document
import ShaderScript.Command.Arguments
import ShaderScript.Command.Disk
import ShaderScript.Command.Host
import ShaderScript.Command.Run
import ShaderScript.Main
import ShaderScript.Proofs.Tree
import ShaderScript.Proofs.Emission
import ShaderScript.Proofs.Diagnostics
import ShaderScript.Proofs.Scope
import ShaderScript.Proofs.WrittenNames
import ShaderScript.Proofs.Imports
import ShaderScript.Proofs.Bindings
import ShaderScript.Proofs.Balance
import ShaderScript.Proofs.ImportSoundness
import ShaderScript.Proofs.Overloads
import ShaderScript.Proofs.Continuation
import ShaderScript.Proofs.Closures
import ShaderScript.Proofs.Noninterference
import ShaderScript.Proofs.Commands
import ShaderScript.Proofs.Json.Loops
import ShaderScript.Proofs.Json.Values
import ShaderScript.Proofs.Json.Nesting
import ShaderScript.Proofs.Wire.Records
import ShaderScript.Proofs.Wire.RoundTrip
import ShaderScript.Proofs.Json.Skipping
import ShaderScript.Proofs.Wire.Fields
import ShaderScript.Proofs.Wire.Variants
import ShaderScript.Proofs.Wire.Loading
import ShaderScript.Proofs.Json.Tokens
import ShaderScript.Proofs.Json.Acceptance
import ShaderScript.Proofs.Wire.Acceptance
import ShaderScript.Proofs.InfixReading
import ShaderScript.Proofs.InfixGrouping
import ShaderScript.Proofs.Switches
import ShaderScript.Proofs.SwitchWalk
import ShaderScript.Proofs.SwitchSelection
import ShaderScript.Proofs.Breaks
import ShaderScript.Proofs.BreakCounts
import ShaderScript.Proofs.BreakEmission
import ShaderScript.Proofs.KeptBreaks
import ShaderScript.Proofs.LoopOrder
import ShaderScript.Proofs.Entries
import ShaderScript.Proofs.LiteralHeads
import ShaderScript.Proofs.CounterLoops
import ShaderScript.Proofs.CountingReadback
import ShaderScript.Proofs.TwinTexts
import ShaderScript.Proofs.StepPlaces
import ShaderScript.Proofs.StepMethods
import ShaderScript.Proofs.Json.Places
import ShaderScript.Proofs.Wire.Places
import ShaderScript.Proofs.ArgumentOrder
import ShaderScript.Proofs.Terminators
import ShaderScript.Proofs.Encoder.Restoration
import ShaderScript.Proofs.Encoder.Shifting
import ShaderScript.Proofs.ByteOrder
import ShaderScript.Proofs.SymbolSearch
