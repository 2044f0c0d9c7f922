import ShaderScript.Script

/-!
# Sampling calls

Texture look-ups are not emitted as calls: they become a chain on the sampled resource. This module
names the calls and says what each appends to the chain.
-/

namespace ShaderScript

/-- What follows `.sample( … )` in the chain of a sampling call. -/
inductive SampleModifier where
  /-- A bias, if there is an argument for it. -/
  | optionalBias
  /-- An explicit level of detail. -/
  | level
  /-- The gradients in both directions. -/
  | grad
  /-- Raw texels, without filtering. -/
  | noInterpolation
deriving DecidableEq

inductive SamplingCall where
  | texture
  | texture2D
  | texture3D
  | textureCube
  | textureLod
  | texelFetch
  | textureGrad
deriving DecidableEq

namespace SamplingCall

/-- Every sampling call. -/
def all : List SamplingCall :=
  [.texture, .texture2D, .texture3D, .textureCube, .textureLod, .texelFetch, .textureGrad]

/-- The function name in shader source. -/
def name : SamplingCall → String
  | texture => "texture"
  | texture2D => "texture2D"
  | texture3D => "texture3D"
  | textureCube => "textureCube"
  | textureLod => "textureLod"
  | texelFetch => "texelFetch"
  | textureGrad => "textureGrad"

def modifier : SamplingCall → SampleModifier
  | texture | texture2D | texture3D | textureCube => .optionalBias
  | textureLod => .level
  | texelFetch => .noInterpolation
  | textureGrad => .grad

/-- The fewest arguments the chain can be built from. -/
def minArgs : SamplingCall → Nat
  | texture | texture2D | texture3D | textureCube | texelFetch => 2
  | textureLod => 3
  | textureGrad => 4

def ofName? (name : String) : Option SamplingCall :=
  all.find? fun call => call.name == name

end SamplingCall

open Script (method)

/-- The chain for a sampling call, from the texts of its arguments. There is none for a call of
another name, or for one that is short of arguments: those are ordinary calls. -/
def sampleChain? (name : String) (args : List String) : Option String := do
  let call ← SamplingCall.ofName? name
  match call.modifier, args with
  | .optionalBias, [resource, coordinate] =>
    some (method resource "sample" [coordinate])
  | .optionalBias, resource :: coordinate :: bias :: _ =>
    some (method (method resource "sample" [coordinate]) "bias" [bias])
  | .level, resource :: coordinate :: level :: _ =>
    some (method (method resource "sample" [coordinate]) "level" [level])
  | .grad, resource :: coordinate :: dx :: dy :: _ =>
    some (method (method resource "sample" [coordinate]) "grad" [dx, dy])
  | .noInterpolation, resource :: coordinate :: _ =>
    some (method (method resource "sample" [coordinate]) "setSampler" ["false"])
  | _, _ => none

/-- A sampling call is written as a chain exactly when it has enough arguments. -/
theorem isSome_sampleChain? (call : SamplingCall) (args : List String) :
    (sampleChain? call.name args).isSome = decide (call.minArgs ≤ args.length) := by
  have named : SamplingCall.ofName? call.name = some call := by cases call <;> decide
  rcases args with _ | ⟨a, _ | ⟨b, _ | ⟨c, _ | ⟨d, rest⟩⟩⟩⟩ <;>
    cases call <;>
      simp +arith [sampleChain?, named, SamplingCall.modifier, SamplingCall.minArgs]

/-- A call of this name and with this many arguments is written as a chain. -/
def SamplingCall.accepts (name : String) (count : Nat) : Bool :=
  (ofName? name).any fun call => decide (call.minArgs ≤ count)

theorem isSome_sampleChain?_eq_accepts (name : String) (args : List String) :
    (sampleChain? name args).isSome = SamplingCall.accepts name args.length := by
  cases hcall : SamplingCall.ofName? name with
  | none => simp [sampleChain?, SamplingCall.accepts, hcall]
  | some call =>
    obtain rfl : call.name = name := by simpa using List.find?_some hcall
    rw [isSome_sampleChain?, SamplingCall.accepts, hcall, Option.any_some]

end ShaderScript
