import RecordFilter.Text.Blank
import RecordFilter.Text.Word

/-! Calendar dates written as year, month and day. -/

namespace RecordFilter

/-- Whether a year of the Gregorian calendar, extended to all years, has a 29 February. -/
def isLeapYear (year : Int) : Bool := year % 4 = 0 && (year % 100 ≠ 0 || year % 400 = 0)

/-- The number of days of a month. -/
def daysInMonth (year : Int) (month : Nat) : Nat :=
  if month = 2 then (if isLeapYear year then 29 else 28)
  else if month = 4 ∨ month = 6 ∨ month = 9 ∨ month = 11 then 30
  else 31

/-- A day of the calendar. -/
structure Date where
  year : Int
  month : Nat
  day : Nat
deriving DecidableEq, Repr

namespace Date

/-- Whether the calendar has this day. -/
def isValid (d : Date) : Bool :=
  1 ≤ d.month && d.month ≤ 12 && 1 ≤ d.day && d.day ≤ daysInMonth d.year d.month

/-- The natural of some digits. -/
def ofDigits (ds : List Char) : Nat := ds.foldl (fun n c => n * 10 + (c.toNat - 48)) 0

/-- Reads a number of at most `most` digits, and blanks in front of it. -/
def readNumber? (most : Nat) (cs : List Char) : Option (Nat × List Char) :=
  let cs := Text.skipBlanks cs
  let ds := (cs.take most).takeWhile Text.isDigit
  if ds.isEmpty then none else some (ofDigits ds, cs.drop ds.length)

/-- Reads a year: at most four digits, or after a sign any number of them. -/
def readYear? (cs : List Char) : Option (Int × List Char) :=
  match Text.skipBlanks cs with
  | '-' :: rest => (readSigned? rest).map fun (n, rest) => (-(n : Int), rest)
  | '+' :: rest => (readSigned? rest).map fun (n, rest) => ((n : Int), rest)
  | cs => (readNumber? 4 cs).map fun (n, rest) => ((n : Int), rest)
where
  /-- The digits right after a sign. -/
  readSigned? (cs : List Char) : Option (Nat × List Char) :=
    let ds := cs.takeWhile Text.isDigit
    if ds.isEmpty then none else some (ofDigits ds, cs.drop ds.length)

/-- Drops a hyphen. -/
def readHyphen? : List Char → Option (List Char)
  | '-' :: rest => some rest
  | _ => none

/-- Reads a date from a whole text: year, month and day between hyphens. -/
def ofChars? (cs : List Char) : Option Date :=
  match readYear? cs with
  | none => none
  | some (year, rest) =>
    match (readHyphen? rest).bind (readNumber? 2) with
    | none => none
    | some (month, rest) =>
      match (readHyphen? rest).bind (readNumber? 2) with
      | none => none
      | some (day, rest) =>
        let date : Date := ⟨year, month, day⟩
        if rest.isEmpty && date.isValid then some date else none

/-- Whether a text of ten bytes is a date. -/
def isDateText (s : String) : Bool := s.utf8ByteSize = 10 && (ofChars? s.toList).isSome

end Date

end RecordFilter
