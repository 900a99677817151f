import RecordFilter.Json.Basic

/-! Values bound to the placeholders of a SQL text. -/

namespace RecordFilter.Sql

/-- A bound value. Integers fit 64 bits with a sign. -/
inductive Param
  | null
  | bool (value : Bool)
  | int (value : Int)
  | float (value : Float)
  | text (value : String)

namespace Param

/-- The bound form of a scalar; an integer too large for a sign is bound as a float. -/
def ofJson? : Json → Option Param
  | .null => some .null
  | .bool b => some (.bool b)
  | .int n => some (if n < Json.signedLimit then .int n else .float (Float.ofInt n))
  | .float x => some (.float x)
  | .str s => some (.text s)
  | .arr _ => none
  | .obj _ => none

/-- The JSON value of a bound value. -/
def toJson : Param → Json
  | .null => .null
  | .bool b => .bool b
  | .int n => .int n
  | .float x => .float x
  | .text s => .str s

end Param

end RecordFilter.Sql
