import ShaderScript.Json.Fault

/-!
# JSON tokens

Reading blanks, words, strings and numbers off the front of a text. Each reader returns what it read
and the rest of the text, or refuses the text at an exact place.
-/

namespace ShaderScript.Json

/-- The characters that may stand between tokens. -/
def isBlank (c : Char) : Bool :=
  c == ' ' || c == '\n' || c == '\t' || c == '\r'

def skipBlanks (text : List Char) : List Char :=
  text.dropWhile isBlank

/-- Reads the rest of a word whose first letter has been read. -/
def readWord : (word text : List Char) → Except Refusal (List Char)
  | [], text => .ok text
  | _ :: _, [] => refuse .endInValue []
  | letter :: word, c :: text =>
    if c = letter then readWord word text else refuseNext .expectedWord (c :: text)

/-- Reads the colon after a key. -/
def readColon (text : List Char) : Except Refusal (List Char) :=
  match skipBlanks text with
  | ':' :: rest => .ok rest
  | [] => refuse .endInObject []
  | rest => refuseNext .expectedColon rest

/-! ## Strings -/

def hexDigit? (c : Char) : Option Nat :=
  if '0' ≤ c ∧ c ≤ '9' then some (c.toNat - '0'.toNat)
  else if 'a' ≤ c ∧ c ≤ 'f' then some (c.toNat - 'a'.toNat + 10)
  else if 'A' ≤ c ∧ c ≤ 'F' then some (c.toNat - 'A'.toNat + 10)
  else none

/-- The number that four hexadecimal digits write. -/
def hexUnit? : List Char → Option Nat
  | a :: b :: c :: d :: _ => do
    let a ← hexDigit? a
    let b ← hexDigit? b
    let c ← hexDigit? c
    let d ← hexDigit? d
    some (((a * 16 + b) * 16 + c) * 16 + d)
  | _ => none

/-- Reads the four hexadecimal digits of an escape. They are looked for in the next four bytes. -/
def readHexUnit (text : List Char) : Except Refusal Nat :=
  match hexUnit? text with
  | some unit => .ok unit
  | none =>
    if byteSize text < 4 then refuse .endInString []
    else .error ⟨.malformed .invalidEscape, byteSize text - 4⟩

/-- The first of two units that write one character. -/
def isHighSurrogate (unit : Nat) : Bool :=
  0xD800 ≤ unit && unit ≤ 0xDBFF

/-- The second of two units that write one character. -/
def isLowSurrogate (unit : Nat) : Bool :=
  0xDC00 ≤ unit && unit ≤ 0xDFFF

/-- Reads the second unit of a pair, which has an escape of its own. -/
def readLowSurrogate : List Char → Except Refusal Nat
  | '\\' :: 'u' :: text => do
    let low ← readHexUnit text
    if isLowSurrogate low then .ok low else refuse .loneSurrogate (text.drop 4)
  | '\\' :: text =>
    if text.isEmpty then refuse .endInString [] else refuseNext .brokenSurrogate text
  | [] => refuse .endInString []
  | text => refuseNext .brokenSurrogate text

/-- Reads the digits of a numeric escape. Returns the character and how many characters of the text
it takes. -/
def readUnicodeEscape (text : List Char) : Except Refusal (Char × Nat) := do
  let unit ← readHexUnit text
  if isLowSurrogate unit then refuse .loneSurrogate (text.drop 4)
  else if isHighSurrogate unit then do
    let low ← readLowSurrogate (text.drop 4)
    .ok (Char.ofNat ((unit - 0xD800) * 0x400 + (low - 0xDC00) + 0x10000), 10)
  else .ok (Char.ofNat unit, 4)

/-- The character that a one-letter escape stands for. -/
def escaped? : Char → Option Char
  | '"' => some '"'
  | '\\' => some '\\'
  | '/' => some '/'
  | 'b' => some '\x08'
  | 'f' => some '\x0c'
  | 'n' => some '\n'
  | 'r' => some '\r'
  | 't' => some '\t'
  | _ => none

/-- Reads an escape after its backslash. Returns the character and how many characters of the text
it takes. -/
def readEscape : List Char → Except Refusal (Char × Nat)
  | [] => refuse .endInString []
  | 'u' :: text => do
    let (c, taken) ← readUnicodeEscape text
    .ok (c, taken + 1)
  | letter :: text =>
    match escaped? letter with
    | some c => .ok (c, 1)
    | none => refuseNext .invalidEscape (letter :: text)

/-- Reads the characters of a string up to its closing quote. The first `taken` characters of the
text belong to an escape that has been read; `read` holds the characters before, in reverse. -/
def readStringFrom : (taken : Nat) → (read text : List Char) →
    Except Refusal (String × List Char)
  | _, _, [] => refuse .endInString []
  | taken + 1, read, _ :: text => readStringFrom taken read text
  | 0, read, c :: text =>
    if c = '"' then .ok (String.ofList read.reverse, text)
    else if c = '\\' then
      match readEscape text with
      | .ok (escaped, taken) => readStringFrom taken (escaped :: read) text
      | .error refusal => .error refusal
    else if c < ' ' then refuseNext .controlCharacter (c :: text)
    else readStringFrom 0 (c :: read) text

/-- Reads a string after its opening quote. -/
def readString (text : List Char) : Except Refusal (String × List Char) :=
  readStringFrom 0 [] text

/-! ## Numbers -/

/-- The greatest significand. -/
def maxSignificand : Nat := Nat.pow 2 64 - 1

/-- The greatest exponent that is told apart from larger ones. -/
def maxExponent : Nat := Nat.pow 2 31 - 1

def digitValue (c : Char) : Nat :=
  c.toNat - '0'.toNat

/-- Appends digits to a significand as long as it stays within its limit. Returns it with the number
of digits that were left out. -/
def extendSignificand : Nat → List Char → Nat × Nat
  | significand, [] => (significand, 0)
  | significand, digit :: digits =>
    let extended := significand * 10 + digitValue digit
    if extended ≤ maxSignificand then extendSignificand extended digits
    else (significand, digits.length + 1)

/-- The exponent that the digits write, or the digits after the one that takes it over its limit. -/
def exponentOf : Nat → List Char → Except (List Char) Nat
  | exponent, [] => .ok exponent
  | exponent, digit :: digits =>
    let extended := exponent * 10 + digitValue digit
    if extended ≤ maxExponent then exponentOf extended digits else .error digits

/-- A decimal is refused if the number it denotes is not finite. -/
def finishDecimal (decimal : Decimal) (rest : List Char) : Except Refusal (Number × List Char) :=
  if decimal.inRange then .ok (.decimal decimal, rest) else refuse .numberOutOfRange rest

/-- Reads the digits of an exponent, which has the given sign. -/
def readExponentDigits (mantissa : Decimal) (down : Bool) (text : List Char) :
    Except Refusal (Number × List Char) :=
  match text with
  | [] => refuse .endInValue []
  | first :: _ =>
    if first.isDigit then
      let rest := text.dropWhile Char.isDigit
      match exponentOf 0 (text.takeWhile Char.isDigit) with
      | .ok exponent =>
        let shift : Int := if down then -exponent else exponent
        finishDecimal { mantissa with exponent := mantissa.exponent + shift } rest
      | .error unreadDigits =>
        if mantissa.digits = 0 || down then .ok (.decimal ⟨mantissa.negative, 0, 0⟩, rest)
        else refuse .numberOutOfRange (unreadDigits ++ rest)
    else refuseNext .invalidNumber text

/-- Reads an exponent after its letter. -/
def readExponent (mantissa : Decimal) : List Char → Except Refusal (Number × List Char)
  | '+' :: text => readExponentDigits mantissa false text
  | '-' :: text => readExponentDigits mantissa true text
  | text => readExponentDigits mantissa false text

/-- Reads the digits after a decimal point, and an exponent if there is one. -/
def readFraction (whole : Decimal) (text : List Char) : Except Refusal (Number × List Char) :=
  let digits := text.takeWhile Char.isDigit
  let rest := text.dropWhile Char.isDigit
  if digits.isEmpty then
    if rest.isEmpty then refuse .endInValue [] else refuseNext .invalidNumber rest
  else
    let (significand, dropped) := extendSignificand whole.digits digits
    let mantissa : Decimal :=
      { whole with
        digits := significand
        exponent := whole.exponent - (digits.length - dropped : Nat) }
    match rest with
    | 'e' :: rest | 'E' :: rest => readExponent mantissa rest
    | _ => finishDecimal mantissa rest

/-- An integer is kept as one if it fits 64 bits; minus zero is a decimal. -/
def finishInteger (negative : Bool) (significand : Nat) : Number :=
  if negative then
    if significand = 0 || Nat.pow 2 63 < significand then .decimal ⟨true, significand, 0⟩
    else .integer (-significand)
  else .integer significand

/-- Reads what follows the whole part of a number. -/
def readAfterWhole (negative : Bool) (digits rest : List Char) :
    Except Refusal (Number × List Char) :=
  let (significand, dropped) := extendSignificand 0 digits
  let whole : Decimal := ⟨negative, significand, dropped⟩
  match rest with
  | '.' :: rest => readFraction whole rest
  | 'e' :: rest | 'E' :: rest => readExponent whole rest
  | _ =>
    if dropped = 0 then .ok (finishInteger negative significand, rest)
    else finishDecimal whole rest

/-- Reads a number after its sign. -/
def readNumber (negative : Bool) (text : List Char) : Except Refusal (Number × List Char) :=
  match text with
  | [] => refuse .endInValue []
  | '0' :: rest =>
    if rest.head?.any Char.isDigit then refuseNext .invalidNumber rest
    else readAfterWhole negative ['0'] rest
  | first :: _ =>
    if first.isDigit then
      readAfterWhole negative (text.takeWhile Char.isDigit) (text.dropWhile Char.isDigit)
    else refuseNext .invalidNumber text

/-- Reads a value that is not bracketed. There is none if the text starts with a bracket or with a
character that no value starts with. -/
def readScalar? : List Char → Option (Except Refusal (Value × List Char))
  | 'n' :: text => some ((readWord "ull".toList text).map fun rest => (.null, rest))
  | 't' :: text => some ((readWord "rue".toList text).map fun rest => (.bool true, rest))
  | 'f' :: text => some ((readWord "alse".toList text).map fun rest => (.bool false, rest))
  | '"' :: text => some ((readString text).map fun (value, rest) => (.str value, rest))
  | '-' :: text => some ((readNumber true text).map fun (value, rest) => (.num value, rest))
  | c :: text =>
    if c.isDigit then
      some ((readNumber false (c :: text)).map fun (value, rest) => (.num value, rest))
    else none
  | [] => none

end ShaderScript.Json
