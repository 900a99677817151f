import RecordFilter.Text.Word

/-! Decimal integers of 64 bits with an optional sign. -/

namespace RecordFilter.Text

/-- The natural of some digits, if there are digits only and at least one. -/
def natural? (cs : List Char) : Option Nat :=
  if cs.isEmpty || !cs.all isDigit then none
  else some (cs.foldl (fun n c => n * 10 + (c.toNat - 48)) 0)

/-- The greatest integer of 64 bits with a sign. -/
abbrev greatest : Nat := 0x7FFFFFFFFFFFFFFF

/-- The integer of a text, if it fits 64 bits. -/
def int64? : List Char → Option Int
  | '-' :: rest =>
    match natural? rest with
    | some n => if n ≤ greatest + 1 then some (-n) else none
    | none => none
  | '+' :: rest => small? rest
  | cs => small? cs
where
  /-- The integer of some digits, if it fits. -/
  small? (cs : List Char) : Option Int :=
    match natural? cs with
    | some n => if n ≤ greatest then some n else none
    | none => none

end RecordFilter.Text
