/-! The shortest decimal that reads back as a given binary floating-point number. -/

namespace RecordFilter.Decimal

/-- The number `digits * 10 ^ exponent`. -/
structure Scientific where
  digits : Nat
  exponent : Int
deriving DecidableEq, Repr

/-- A finite positive double is `mantissa * 2 ^ exponent`. The doubles below and above it lie one
    unit of the mantissa away, except that the one below a power of two is nearer by half. -/
structure Binary where
  mantissa : Nat
  exponent : Int
  nearBelow : Bool
deriving DecidableEq, Repr

/-- The 52 lowest bits hold the fraction: 2 to the power of 52. -/
abbrev Binary.fractionSize : Nat := 0x10000000000000

/-- Reads the fields of the 64 bits of a positive finite double: 11 bits of exponent stand above the
    fraction, and a leading one is implied where they are not all zero. -/
def Binary.ofBits (bits : Nat) : Binary :=
  let fraction := bits % fractionSize
  let biased := bits / fractionSize % 2048
  if biased = 0 then ⟨fraction, -1074, false⟩
  else ⟨fraction + fractionSize, Int.ofNat biased - 1075, fraction = 0 && biased > 1⟩

/-- The number of decimal digits of `n`, which is 1 for zero. -/
def digitCount (n : Nat) : Nat := (Nat.toDigits 10 n).length

/-- A fraction of two naturals, the second positive. -/
structure Ratio where
  num : Nat
  den : Nat

/-- The fraction `mantissa * 2 ^ exponent`. -/
def Ratio.ofBinary (mantissa : Nat) (exponent : Int) : Ratio :=
  if 0 ≤ exponent then ⟨mantissa * Nat.pow 2 exponent.toNat, 1⟩
  else ⟨mantissa, Nat.pow 2 (-exponent).toNat⟩

/-- The exponent `e` with `10 ^ e ≤ r < 10 ^ (e + 1)`, for a positive `r`. -/
def Ratio.magnitude (r : Ratio) : Int :=
  if r.den ≤ r.num then (digitCount (r.num / r.den) : Int) - 1
  else
    let k := digitCount (r.den / r.num)
    if r.den ≤ r.num * Nat.pow 10 (k - 1) then -((k : Int) - 1) else -(k : Int)

/-- The fraction divided by `10 ^ exponent`. -/
def Ratio.scale (r : Ratio) (exponent : Int) : Ratio :=
  if 0 ≤ exponent then ⟨r.num, r.den * Nat.pow 10 exponent.toNat⟩
  else ⟨r.num * Nat.pow 10 (-exponent).toNat, r.den⟩

/-- The numbers that round to a given double: those between `low` and `high`, with the ends when
    `closed`. All three fractions have one denominator. -/
structure Interval where
  low : Nat
  value : Nat
  high : Nat
  den : Nat
  closed : Bool

/-- The interval of a double, in units of `10 ^ exponent`. -/
def Binary.interval (b : Binary) (exponent : Int) : Interval :=
  let unit := (Ratio.ofBinary 1 (b.exponent - 2)).scale exponent
  let m := 4 * b.mantissa
  { low := (m - if b.nearBelow then 1 else 2) * unit.num
    value := m * unit.num
    high := (m + 2) * unit.num
    den := unit.den
    closed := b.mantissa % 2 = 0 }

/-- Whether the natural `d` lies in the interval. -/
def Interval.holds (i : Interval) (d : Nat) : Bool :=
  if i.closed then i.low ≤ d * i.den && d * i.den ≤ i.high
  else i.low < d * i.den && d * i.den < i.high

/-- The natural nearest to the value among its two neighbours that lie in the interval; of two
    equally near ones the even one. -/
def Interval.nearest? (i : Interval) : Option Nat :=
  let below := i.value / i.den
  let above := below + 1
  match i.holds below, i.holds above with
  | false, false => none
  | true, false => some below
  | false, true => some above
  | true, true =>
    let toBelow := i.value - below * i.den
    let toAbove := above * i.den - i.value
    if toBelow < toAbove then some below
    else if toAbove < toBelow then some above
    else some (if below % 2 = 0 then below else above)

/-- Moves the final zeros of the digits into the exponent, at most `fuel` of them. -/
def Scientific.trim : Nat → Scientific → Scientific
  | 0, s => s
  | fuel + 1, s =>
    if s.digits ≠ 0 && s.digits % 10 = 0 then trim fuel ⟨s.digits / 10, s.exponent + 1⟩ else s

/-- Tries one digit, then two, and so on: the first count with a decimal in the interval wins. -/
def Binary.search (b : Binary) (magnitude : Int) : Nat → Nat → Scientific
  | 0, _ => ⟨0, 0⟩
  | fuel + 1, count =>
    let exponent := magnitude + 1 - count
    match (b.interval exponent).nearest? with
    | some d => Scientific.trim 20 ⟨d, exponent⟩
    | none => b.search magnitude fuel (count + 1)

/-- The shortest decimal that reads back as the positive finite double with these bits, and of the
    shortest ones the nearest. Seventeen digits always suffice. -/
def shortest (bits : Nat) : Scientific :=
  let b := Binary.ofBits bits
  b.search (Ratio.ofBinary b.mantissa b.exponent).magnitude 17 1

end RecordFilter.Decimal
