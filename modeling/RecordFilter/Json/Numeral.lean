import RecordFilter.Json.Basic

/-! Numbers in a JSON text: the grammar of a numeral, and the number it stands for. -/

namespace RecordFilter.Json

/-- A numeral as written, with the digits of its parts. -/
structure Numeral where
  negative : Bool
  whole : List Nat
  fraction : Option (List Nat)
  /-- Whether the power of ten is negative, and its digits. -/
  power : Option (Bool × List Nat)

namespace Numeral

/-- The value of a decimal digit. -/
def digit? (c : Char) : Option Nat := if c.isDigit then some (c.toNat - 48) else none

/-- The digits in front of a text, and the rest. -/
def digits : List Char → List Nat × List Char
  | [] => ([], [])
  | c :: rest =>
    match digit? c with
    | some d => let (ds, after) := digits rest; (d :: ds, after)
    | none => ([], c :: rest)

/-- Reads the digits after the point, of which there is at least one. -/
def readFraction? : List Char → Option (Option (List Nat) × List Char)
  | '.' :: rest =>
    match digits rest with
    | ([], _) => none
    | (ds, after) => some (some ds, after)
  | rest => some (none, rest)

/-- The sign in front of a power of ten: whether it is negative. -/
def powerSign : List Char → Bool × List Char
  | '-' :: rest => (true, rest)
  | '+' :: rest => (false, rest)
  | rest => (false, rest)

/-- Reads the power of ten, which has at least one digit. -/
def readPower? : List Char → Option (Option (Bool × List Nat) × List Char)
  | c :: rest =>
    if c = 'e' || c = 'E' then
      let (negative, rest) := powerSign rest
      match digits rest with
      | ([], _) => none
      | (ds, after) => some (some (negative, ds), after)
    else some (none, c :: rest)
  | [] => some (none, [])

/-- Whether the digits may stand before the point: at least one, and no zero in front of others. -/
def isWhole : List Nat → Bool
  | [] => false
  | [_] => true
  | d :: _ => d != 0

/-- Reads a numeral without its sign. -/
def readUnsigned? (negative : Bool) (text : List Char) : Option (Numeral × List Char) :=
  match digits text with
  | (whole, rest) =>
    if isWhole whole then
      match readFraction? rest with
      | none => none
      | some (fraction, rest) =>
        match readPower? rest with
        | none => none
        | some (power, rest) => some (⟨negative, whole, fraction, power⟩, rest)
    else none

/-- Reads a numeral in front of a text. -/
def read? : List Char → Option (Numeral × List Char)
  | '-' :: rest => readUnsigned? true rest
  | text => readUnsigned? false text

/-! ### The number -/

/-- The natural that some digits stand for. -/
def natural (ds : List Nat) : Nat := ds.foldl (fun n d => n * 10 + d) 0

/-- Significant digits end where the next one would not fit 64 bits; `power` counts the digits
    before the point that were left out. -/
def takeWhole : Nat → List Nat → Nat × Int
  | significand, [] => (significand, 0)
  | significand, d :: ds =>
    if significand * 10 + d < unsignedLimit then takeWhole (significand * 10 + d) ds
    else (significand, (ds.length : Int) + 1)

/-- Goes on with the digits after the point, each of which lowers the power of ten. -/
def takeFraction : Nat → Int → List Nat → Nat × Int
  | significand, power, [] => (significand, power)
  | significand, power, d :: ds =>
    if significand * 10 + d < unsignedLimit then takeFraction (significand * 10 + d) (power - 1) ds
    else (significand, power)

/-- The float nearest to a power of ten. -/
def tenTo (power : Nat) : Float := Float.ofScientific 1 false power

/-- The product `x * 10 ^ power` in steps of at most 308, each rounded; one too large for floats
    has no value. -/
def scale? (x : Float) (power : Int) : Option Float :=
  if power.natAbs ≤ 308 then
    if 0 ≤ power then
      let y := x * tenTo power.natAbs
      if y.isInf then none else some y
    else some (x / tenTo power.natAbs)
  else if x == 0.0 then some x
  else if 0 ≤ power then none
  else scale? (x / tenTo 308) (power + 308)
termination_by power.natAbs
decreasing_by omega

/-- The float of a numeral, if it is finite. -/
def float? (n : Numeral) : Option Float :=
  let (significand, power) := takeWhole 0 n.whole
  let (significand, power) := takeFraction significand power (n.fraction.getD [])
  let power := match n.power with
    | none => power
    | some (true, ds) => power - natural ds
    | some (false, ds) => power + natural ds
  (scale? (Float.ofNat significand) power).map fun x => if n.negative then -x else x

/-- The number of a numeral: an integer if it has neither point nor power of ten, is not `-0` and
    fits 64 bits, and else a float. -/
def number? (n : Numeral) : Option Json :=
  match n.fraction, n.power with
  | none, none =>
    let value := natural n.whole
    if n.negative then
      if value ≠ 0 ∧ value ≤ signedLimit then some (.int (-value)) else (float? n).map .float
    else if value < unsignedLimit then some (.int value)
    else (float? n).map .float
  | _, _ => (float? n).map .float

end Numeral

end RecordFilter.Json
