import ShaderScript.Decimal

/-!
# Shortest decimals

The shortest decimal that reads back as a given floating-point number, and the text it is written
as. A finite number is `mantissa * 2 ^ power`; the decimals that round to it form an interval around
it, whose ends belong to it when the mantissa is even. For one digit after another the two
neighbours of the number among the decimals of that many digits are tried, in exact arithmetic.
-/

namespace ShaderScript.Decimal

/-- A positive finite floating-point number, `mantissa * 2 ^ power`. -/
structure Binary where
  mantissa : Nat
  power : Int

namespace Binary

/-- The parts of the number with these bits, its sign left out. -/
def ofBits (bits : Nat) : Binary :=
  let fraction : Nat := bits % Nat.pow 2 52
  let biased : Nat := bits / Nat.pow 2 52 % Nat.pow 2 11
  if biased = 0 then ⟨fraction, -1074⟩ else ⟨fraction + Nat.pow 2 52, (biased : Int) - 1075⟩

/-- Compares the decimal `digits * 10 ^ exponent` with `count * 2 ^ power`. -/
def compareDecimal (digits : Nat) (exponent : Int) (count : Nat) (power : Int) : Ordering :=
  compare (digits * Nat.pow 10 exponent.toNat * Nat.pow 2 (-power).toNat)
    (count * Nat.pow 2 power.toNat * Nat.pow 10 (-exponent).toNat)

/-- The decimal rounds to the number. Below a power of two the numbers lie twice as dense, so the
interval is shorter there. -/
def contains (number : Binary) (digits : Nat) (exponent : Int) : Bool :=
  let below := if number.mantissa = Nat.pow 2 52 && number.power != -1074 then 1 else 2
  let low := compareDecimal digits exponent (4 * number.mantissa - below) (number.power - 2)
  let high := compareDecimal digits exponent (4 * number.mantissa + 2) (number.power - 2)
  let even := number.mantissa % 2 = 0
  (low == .gt || even && low == .eq) && (high == .lt || even && high == .eq)

/-- The number divided by `10 ^ exponent`, rounded down. -/
def scaled (number : Binary) (exponent : Int) : Nat :=
  number.mantissa * Nat.pow 2 number.power.toNat * Nat.pow 10 (-exponent).toNat /
    (Nat.pow 2 (-number.power).toNat * Nat.pow 10 exponent.toNat)

/-- The least power of ten above the number. Searched upwards from below the smallest number. -/
def ceilingPower (number : Binary) : Int :=
  go 700 (-330)
where
  go : Nat → Int → Int
    | 0, exponent => exponent
    | steps + 1, exponent =>
      if number.scaled exponent = 0 then exponent else go steps (exponent + 1)

/-- Of the two neighbours of the number among the multiples of `10 ^ exponent`, the nearer one that
rounds to the number; a tie goes to the even one. -/
def neighbour? (number : Binary) (exponent : Int) : Option Nat :=
  let below := number.scaled exponent
  let above := below + 1
  match number.contains below exponent, number.contains above exponent with
  | false, false => none
  | true, false => some below
  | false, true => some above
  | true, true =>
    -- Twice the number is compared with the sum of its neighbours.
    match compareDecimal (below + above) exponent (2 * number.mantissa) number.power with
    | .lt => some above
    | .gt => some below
    | .eq => some (if below % 2 = 0 then below else above)

/-- The fewest digits, with their power of ten, that round to the number. -/
def shortest (number : Binary) : Nat × Int :=
  let top := number.ceilingPower
  go top 17 1
where
  go (top : Int) : Nat → Nat → Nat × Int
    | 0, count => (number.scaled (top - count), top - count)
    | tries + 1, count =>
      match number.neighbour? (top - count) with
      | some digits => (digits, top - count)
      | none => go top tries (count + 1)

end Binary

/-- Drops trailing zeros, counting them into the power of ten. -/
def trimZeros : Nat → Nat × Int → Nat × Int
  | 0, decimal => decimal
  | steps + 1, (digits, exponent) =>
    if digits % 10 = 0 then trimZeros steps (digits / 10, exponent + 1) else (digits, exponent)

/-- Writes `digits * 10 ^ exponent`: positional from `10 ^ -5` up to `10 ^ 16`, with a point in any
case, and with an exponent elsewhere. -/
def layout (digits : Nat) (exponent : Int) : String :=
  let text := Nat.toDigits 10 digits
  let point : Int := text.length + exponent
  let zeros (count : Int) : List Char := List.replicate count.toNat '0'
  if 0 ≤ exponent && point ≤ 16 then String.ofList (text ++ zeros exponent ++ ['.', '0'])
  else if 0 < point && point ≤ 16 then
    String.ofList (text.take point.toNat ++ ['.'] ++ text.drop point.toNat)
  else if -5 < point && point ≤ 0 then
    String.ofList (['0', '.'] ++ zeros (-point) ++ text)
  else
    let scale := "e" ++ toString (point - 1)
    match text with
    | [digit] => String.ofList [digit] ++ scale
    | first :: rest => String.ofList (first :: '.' :: rest) ++ scale
    | [] => scale

/-- The number the numeral denotes, in its shortest form. -/
def shortestText (decimal : Decimal) : String :=
  let sign := if decimal.negative then "-" else ""
  let bits := decimal.magnitude.toBits.toNat
  if bits = 0 then sign ++ "0.0"
  else
    let (digits, exponent) := trimZeros 20 (Binary.ofBits bits).shortest
    sign ++ layout digits exponent

end ShaderScript.Decimal
