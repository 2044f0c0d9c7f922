/-!
# The names of the target library

Every name a generated document can import, with what it is used for. The table is in ascending
order of name, so that it can be searched by bisection.
-/

namespace ShaderScript

/-- What a library name is used for in generated text. -/
inductive SymbolKind where
  /-- Functions, branches, loops and the calls that leave them. -/
  | controlFlow
  /-- Type constructors and conversions. -/
  | constructor
  /-- Free-function forms of operators. -/
  | operator
  /-- Math and shading helpers, and constants. -/
  | math
  /-- Uniform, varying, texture and reference constructors. -/
  | resource
  /-- Built-in shader inputs. -/
  | input
deriving DecidableEq

namespace SymbolKind

/-- The kind as the symbol listing shows it. -/
def label : SymbolKind → String
  | controlFlow => "control-flow"
  | constructor => "constructor"
  | operator => "operator"
  | math => "math"
  | resource => "resource"
  | input => "input"

end SymbolKind

/-- A name the target library exports. -/
structure Symbol where
  name : String
  kind : SymbolKind
deriving DecidableEq

namespace Library

/-- The exported names in ascending order. -/
def symbols : Array Symbol :=
  #[
    ⟨"Break", .controlFlow⟩,
    ⟨"Continue", .controlFlow⟩,
    ⟨"Discard", .controlFlow⟩,
    ⟨"EPSILON", .math⟩,
    ⟨"Fn", .controlFlow⟩,
    ⟨"INFINITY", .math⟩,
    ⟨"If", .controlFlow⟩,
    ⟨"Loop", .controlFlow⟩,
    ⟨"PI", .math⟩,
    ⟨"PI2", .math⟩,
    ⟨"Return", .controlFlow⟩,
    ⟨"Switch", .controlFlow⟩,
    ⟨"abs", .math⟩,
    ⟨"acos", .math⟩,
    ⟨"add", .operator⟩,
    ⟨"addAssign", .operator⟩,
    ⟨"all", .math⟩,
    ⟨"and", .operator⟩,
    ⟨"any", .math⟩,
    ⟨"asin", .math⟩,
    ⟨"assign", .operator⟩,
    ⟨"atan", .math⟩,
    ⟨"atan2", .math⟩,
    ⟨"attribute", .resource⟩,
    ⟨"bitAnd", .operator⟩,
    ⟨"bitAndAssign", .operator⟩,
    ⟨"bitNot", .operator⟩,
    ⟨"bitOr", .operator⟩,
    ⟨"bitOrAssign", .operator⟩,
    ⟨"bitXor", .operator⟩,
    ⟨"bitXorAssign", .operator⟩,
    ⟨"bool", .constructor⟩,
    ⟨"bvec2", .constructor⟩,
    ⟨"bvec3", .constructor⟩,
    ⟨"bvec4", .constructor⟩,
    ⟨"cameraFar", .input⟩,
    ⟨"cameraNear", .input⟩,
    ⟨"cameraPosition", .input⟩,
    ⟨"cameraProjectionMatrix", .input⟩,
    ⟨"cameraViewMatrix", .input⟩,
    ⟨"cameraWorldMatrix", .input⟩,
    ⟨"cbrt", .math⟩,
    ⟨"ceil", .math⟩,
    ⟨"clamp", .math⟩,
    ⟨"color", .constructor⟩,
    ⟨"cos", .math⟩,
    ⟨"cross", .math⟩,
    ⟨"cubeTexture", .resource⟩,
    ⟨"dFdx", .math⟩,
    ⟨"dFdy", .math⟩,
    ⟨"decrement", .operator⟩,
    ⟨"decrementBefore", .operator⟩,
    ⟨"degrees", .math⟩,
    ⟨"deltaTime", .input⟩,
    ⟨"determinant", .math⟩,
    ⟨"difference", .math⟩,
    ⟨"distance", .math⟩,
    ⟨"div", .operator⟩,
    ⟨"divAssign", .operator⟩,
    ⟨"dot", .math⟩,
    ⟨"equal", .operator⟩,
    ⟨"exp", .math⟩,
    ⟨"exp2", .math⟩,
    ⟨"faceDirection", .input⟩,
    ⟨"faceForward", .math⟩,
    ⟨"float", .constructor⟩,
    ⟨"floor", .math⟩,
    ⟨"fract", .math⟩,
    ⟨"frontFacing", .input⟩,
    ⟨"fwidth", .math⟩,
    ⟨"greaterThan", .operator⟩,
    ⟨"greaterThanEqual", .operator⟩,
    ⟨"increment", .operator⟩,
    ⟨"incrementBefore", .operator⟩,
    ⟨"instanceIndex", .input⟩,
    ⟨"int", .constructor⟩,
    ⟨"inverse", .math⟩,
    ⟨"inverseSqrt", .math⟩,
    ⟨"ivec2", .constructor⟩,
    ⟨"ivec3", .constructor⟩,
    ⟨"ivec4", .constructor⟩,
    ⟨"length", .math⟩,
    ⟨"lengthSq", .math⟩,
    ⟨"lessThan", .operator⟩,
    ⟨"lessThanEqual", .operator⟩,
    ⟨"log", .math⟩,
    ⟨"log2", .math⟩,
    ⟨"mat2", .constructor⟩,
    ⟨"mat3", .constructor⟩,
    ⟨"mat4", .constructor⟩,
    ⟨"max", .math⟩,
    ⟨"min", .math⟩,
    ⟨"mix", .math⟩,
    ⟨"mod", .math⟩,
    ⟨"modelNormalMatrix", .input⟩,
    ⟨"modelPosition", .input⟩,
    ⟨"modelViewMatrix", .input⟩,
    ⟨"modelWorldMatrix", .input⟩,
    ⟨"modelWorldMatrixInverse", .input⟩,
    ⟨"mul", .operator⟩,
    ⟨"mulAssign", .operator⟩,
    ⟨"negate", .operator⟩,
    ⟨"normalGeometry", .input⟩,
    ⟨"normalLocal", .input⟩,
    ⟨"normalView", .input⟩,
    ⟨"normalWorld", .input⟩,
    ⟨"normalize", .math⟩,
    ⟨"not", .operator⟩,
    ⟨"notEqual", .operator⟩,
    ⟨"oneMinus", .math⟩,
    ⟨"or", .operator⟩,
    ⟨"overloadingFn", .controlFlow⟩,
    ⟨"pointUV", .input⟩,
    ⟨"positionGeometry", .input⟩,
    ⟨"positionLocal", .input⟩,
    ⟨"positionView", .input⟩,
    ⟨"positionWorld", .input⟩,
    ⟨"pow", .math⟩,
    ⟨"radians", .math⟩,
    ⟨"reciprocal", .math⟩,
    ⟨"reference", .resource⟩,
    ⟨"reflect", .math⟩,
    ⟨"refract", .math⟩,
    ⟨"remainder", .operator⟩,
    ⟨"remainderAssign", .operator⟩,
    ⟨"round", .math⟩,
    ⟨"saturate", .math⟩,
    ⟨"screenCoordinate", .input⟩,
    ⟨"screenSize", .input⟩,
    ⟨"screenUV", .input⟩,
    ⟨"select", .controlFlow⟩,
    ⟨"shiftLeft", .operator⟩,
    ⟨"shiftLeftAssign", .operator⟩,
    ⟨"shiftRight", .operator⟩,
    ⟨"shiftRightAssign", .operator⟩,
    ⟨"sign", .math⟩,
    ⟨"sin", .math⟩,
    ⟨"smoothstep", .math⟩,
    ⟨"sqrt", .math⟩,
    ⟨"step", .math⟩,
    ⟨"sub", .operator⟩,
    ⟨"subAssign", .operator⟩,
    ⟨"tan", .math⟩,
    ⟨"texture", .resource⟩,
    ⟨"texture3D", .resource⟩,
    ⟨"textureLoad", .resource⟩,
    ⟨"textureSize", .resource⟩,
    ⟨"time", .input⟩,
    ⟨"transpose", .math⟩,
    ⟨"trunc", .math⟩,
    ⟨"uint", .constructor⟩,
    ⟨"uniform", .resource⟩,
    ⟨"uv", .input⟩,
    ⟨"uvec2", .constructor⟩,
    ⟨"uvec3", .constructor⟩,
    ⟨"uvec4", .constructor⟩,
    ⟨"varying", .resource⟩,
    ⟨"vec2", .constructor⟩,
    ⟨"vec3", .constructor⟩,
    ⟨"vec4", .constructor⟩,
    ⟨"vertexIndex", .input⟩,
    ⟨"xor", .operator⟩
  ]

end Library

end ShaderScript
