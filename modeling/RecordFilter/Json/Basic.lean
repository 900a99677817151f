import RecordFilter.Keyed

/-! JSON values: integers of 64 bits apart from floats, and objects with each key once. -/

namespace RecordFilter

/-- A JSON value. Integers lie between -2^63 and 2^64 - 1; objects are sorted by key. -/
inductive Json
  | null
  | bool (value : Bool)
  | int (value : Int)
  | float (value : Float)
  | str (value : String)
  | arr (items : List Json)
  | obj (members : List (String × Json))

namespace Json

instance : Inhabited Json := ⟨null⟩

/-- The first natural that does not fit 64 bits with a sign: 2 to the power of 63. -/
abbrev signedLimit : Nat := 0x8000000000000000

/-- The first natural that does not fit 64 bits: 2 to the power of 64. -/
abbrev unsignedLimit : Nat := 0x10000000000000000

/-- The integer of a number that fits 64 bits with a sign; a float is never one. -/
def int64? : Json → Option Int
  | int n => if n < signedLimit then some n else none
  | _ => none

/-- The integer of a number that fits 64 bits without a sign. -/
def natural? : Json → Option Nat
  | int n => if 0 ≤ n then some n.toNat else none
  | _ => none

/-- The text of a string. -/
def str? : Json → Option String
  | str s => some s
  | _ => none

/-- The items of a list. -/
def arr? : Json → Option (List Json)
  | arr items => some items
  | _ => none

/-- The value under `key` of an object. -/
def get? (key : String) : Json → Option Json
  | obj members => Keyed.lookup key members
  | _ => none

/-- A value counts as true unless it is null, false, zero or empty. -/
def isTruthy : Json → Bool
  | null => false
  | bool b => b
  | int n => n != 0
  | float x => x != 0.0
  | str s => s != ""
  | arr items => !items.isEmpty
  | obj members => !members.isEmpty

/-- Both `null` and `false` are ways to write "no value". -/
def isUnset : Json → Bool
  | null => true
  | bool b => !b
  | _ => false

/-- The list of some record ids. -/
def ofIds (ids : List Int) : Json := arr (ids.map int)

/-- The object of some members, in any order; the last of a repeated key counts. -/
def ofMembers (members : List (String × Json)) : Json := obj (Keyed.ofList members).entries

end Json

end RecordFilter
