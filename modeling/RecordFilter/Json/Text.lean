import RecordFilter.Json.Basic
import RecordFilter.Decimal.Shortest
import RecordFilter.Text.Hex

/-! The compact text of JSON values: no blanks, few escapes, floats by their shortest decimal. -/

namespace RecordFilter.Json

/-! ### Strings -/

/-- A character inside a string. Only the quote, the backslash and the control characters below
    the blank are escaped. -/
def escapeChar (c : Char) : List Char :=
  if c = '"' then ['\\', '"']
  else if c = '\\' then ['\\', '\\']
  else if c.toNat = 8 then ['\\', 'b']
  else if c.toNat = 9 then ['\\', 't']
  else if c.toNat = 10 then ['\\', 'n']
  else if c.toNat = 12 then ['\\', 'f']
  else if c.toNat = 13 then ['\\', 'r']
  else if c.toNat < 32 then ['\\', 'u'] ++ Text.hexDigits 4 c.toNat
  else [c]

/-- The characters of a string with its quotes. -/
def quotedChars (s : List Char) : List Char := '"' :: s.flatMap escapeChar ++ ['"']

/-- A string with its quotes. -/
def quoted (s : String) : String := String.ofList (quotedChars s.toList)

/-! ### Numbers -/

/-- How floats are written: positional for decimal exponents between `lowest` and `highest`. -/
structure FloatFormat where
  lowest : Int
  highest : Int

/-- Positional notation reaches from `0.00001` to `1000000000000000.0`. -/
def floatFormat : FloatFormat := ⟨-5, 15⟩

/-- The digits of a positive decimal in positional notation, with at least one after the point. -/
def positional (digits : List Char) (exponent : Int) : List Char :=
  let point := (digits.length : Int) + exponent
  if 0 ≤ exponent then digits ++ List.replicate exponent.toNat '0' ++ ['.', '0']
  else if 0 < point then digits.take point.toNat ++ '.' :: digits.drop point.toNat
  else '0' :: '.' :: List.replicate (-point).toNat '0' ++ digits

/-- The digits of a positive decimal with an exponent that always has a sign. -/
def exponential (digits : List Char) (exponent : Int) : List Char :=
  let power := (digits.length : Int) + exponent - 1
  let head := match digits with
    | [] => []
    | [d] => [d]
    | d :: rest => d :: '.' :: rest
  head ++ 'e' :: (if power < 0 then '-' else '+') :: Nat.toDigits 10 power.natAbs

/-- The text of a finite float. -/
def floatText (x : Float) : String :=
  let bits := x.toBits.toNat
  let magnitude := bits % signedLimit
  let sign := if signedLimit ≤ bits then ['-'] else []
  if magnitude = 0 then String.ofList (sign ++ ['0', '.', '0'])
  else
    let s := Decimal.shortest magnitude
    let digits := Nat.toDigits 10 s.digits
    let power := (digits.length : Int) + s.exponent - 1
    let body :=
      if floatFormat.lowest ≤ power && power ≤ floatFormat.highest then positional digits s.exponent
      else exponential digits s.exponent
    String.ofList (sign ++ body)

/-- The text of an integer. -/
def intText (n : Int) : String :=
  if n < 0 then "-" ++ Nat.repr n.natAbs else Nat.repr n.natAbs

/-! ### Values -/

mutual

/-- The compact text of a value. -/
def text : Json → String
  | null => "null"
  | bool true => "true"
  | bool false => "false"
  | int n => intText n
  | float x => floatText x
  | str s => quoted s
  | arr items => "[" ++ String.intercalate "," (textItems items) ++ "]"
  | obj members => "\x7b" ++ String.intercalate "," (textMembers members) ++ "\x7d"

/-- The texts of the items of a list. -/
def textItems : List Json → List String
  | [] => []
  | item :: rest => item.text :: textItems rest

/-- The texts of the members of an object. -/
def textMembers : List (String × Json) → List String
  | [] => []
  | (key, value) :: rest => (quoted key ++ ":" ++ value.text) :: textMembers rest

end

end RecordFilter.Json
