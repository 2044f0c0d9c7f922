import ShaderScript.Json.Token

/-!
# Skipping JSON values

A value that nobody asks for is only checked for its punctuation. Brackets may then be nested to any
depth, so the ones that are open are kept in a list; numbers may be of any size, and escapes may
write half of a pair.
-/

namespace ShaderScript.Json

/-- A bracket that is open. -/
inductive Bracket where
  | list
  | object
deriving DecidableEq

/-- Where a skipped text stands. -/
inductive SkipState where
  /-- A value must follow. -/
  | before
  /-- The bracket has just been opened. -/
  | opened (bracket : Bracket)
  /-- A value has just ended. -/
  | after
deriving DecidableEq

/-- Skips an escape after its backslash. Returns how many characters of the text it takes. -/
def skipEscape : List Char → Except Refusal Nat
  | [] => refuse .endInString []
  | 'u' :: text => do
    let _ ← readHexUnit text
    .ok 5
  | letter :: text =>
    if (escaped? letter).isSome then .ok 1 else refuseNext .invalidEscape (letter :: text)

/-- Skips a string up to its closing quote; the first `taken` characters belong to an escape. -/
def skipStringFrom : (taken : Nat) → (text : List Char) → Except Refusal (List Char)
  | _, [] => refuse .endInString []
  | taken + 1, _ :: text => skipStringFrom taken text
  | 0, c :: text =>
    if c = '"' then .ok text
    else if c = '\\' then
      match skipEscape text with
      | .ok taken => skipStringFrom taken text
      | .error refusal => .error refusal
    else if c < ' ' then refuse .controlCharacter (c :: text)
    else skipStringFrom 0 text

/-- Skips the digits of an exponent. -/
def skipExponentDigits (text : List Char) : Except Refusal (List Char) :=
  if text.head?.any Char.isDigit then .ok (text.dropWhile Char.isDigit)
  else refuseNext .invalidNumber text

/-- Skips an exponent if there is one. -/
def skipExponent : List Char → Except Refusal (List Char)
  | 'e' :: text | 'E' :: text =>
    match text with
    | '+' :: text | '-' :: text => skipExponentDigits text
    | text => skipExponentDigits text
  | text => .ok text

/-- Skips a fraction and an exponent if they are there. -/
def skipAfterWhole : List Char → Except Refusal (List Char)
  | '.' :: text =>
    if text.head?.any Char.isDigit then skipExponent (text.dropWhile Char.isDigit)
    else refuseNext .invalidNumber text
  | text => skipExponent text

/-- Skips a number after its sign. -/
def skipNumber : List Char → Except Refusal (List Char)
  | '0' :: rest =>
    if rest.head?.any Char.isDigit then refuseNext .invalidNumber rest else skipAfterWhole rest
  | text =>
    if text.head?.any Char.isDigit then skipAfterWhole (text.dropWhile Char.isDigit)
    else refuseNext .invalidNumber text

/-- Skips a value that is not bracketed, if there is one. -/
def skipScalar? : List Char → Option (Except Refusal (List Char))
  | 'n' :: text => some (readWord "ull".toList text)
  | 't' :: text => some (readWord "rue".toList text)
  | 'f' :: text => some (readWord "alse".toList text)
  | '"' :: text => some (skipStringFrom 0 text)
  | '-' :: text => some (skipNumber text)
  | c :: text => if c.isDigit then some (skipNumber (c :: text)) else none
  | [] => none

/-- Skips a key and the colon after it. -/
def skipKey (text : List Char) : Except Refusal (List Char) :=
  match skipBlanks text with
  | '"' :: rest => do
    let rest ← skipStringFrom 0 rest
    readColon rest
  | [] => refuse .endInObject []
  | rest => refuseNext .keyNotString rest

namespace Bracket

/-- The text ends while the bracket is open. -/
def atEnd : Bracket → Fault
  | list => .endInList
  | object => .endInObject

/-- Something other than a comma or the closing bracket follows an entry. -/
def noComma : Bracket → Fault
  | list => .expectedCommaInList
  | object => .expectedCommaInObject

def closing : Bracket → Char
  | list => ']'
  | object => '\x7d'

/-- Goes to the value of the next entry. -/
def toEntry : Bracket → List Char → Except Refusal (List Char)
  | list, text => .ok text
  | object, text => skipKey text

end Bracket

/-- Skips the rest of a value, given the brackets that are open and a bound on the steps: each
character of the text takes at most two. -/
def skipFrom : (steps : Nat) → SkipState → List Bracket → List Char →
    Except Refusal (List Char)
  | 0, _, _, _ => refuse .endInValue []
  | steps + 1, .before, enclosing, text =>
    match skipBlanks text with
    | [] => refuse .endInValue []
    | '[' :: rest => skipFrom steps (.opened .list) enclosing rest
    | '\x7b' :: rest => skipFrom steps (.opened .object) enclosing rest
    | rest => do
      let rest ← (skipScalar? rest).getD (refuseNext .expectedValue rest)
      skipFrom steps .after enclosing rest
  | steps + 1, .opened bracket, enclosing, text =>
    match skipBlanks text with
    | [] => refuse bracket.atEnd []
    | c :: rest =>
      if c = bracket.closing then skipFrom steps .after enclosing rest
      else do
        let rest ← bracket.toEntry (c :: rest)
        skipFrom steps .before (bracket :: enclosing) rest
  | _ + 1, .after, [], text => .ok text
  | steps + 1, .after, bracket :: enclosing, text =>
    match skipBlanks text with
    | [] => refuse bracket.atEnd []
    | c :: rest =>
      if c = bracket.closing then skipFrom steps .after enclosing rest
      else if c = ',' then do
        let rest ← bracket.toEntry rest
        skipFrom steps .before (bracket :: enclosing) rest
      else refuseNext bracket.noComma (c :: rest)

/-- Skips a value. -/
def skipValue (limit : Nat) (text : List Char) : Except Refusal (List Char) :=
  skipFrom (2 * limit + 2) .before [] text

end ShaderScript.Json
