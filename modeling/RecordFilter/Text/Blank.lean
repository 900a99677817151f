/-! Blank characters: the Unicode property White_Space. -/

namespace RecordFilter.Text

/-- The blanks beyond the ASCII ones. -/
def wideBlanks : List Nat :=
  [0x85, 0xA0, 0x1680, 0x2028, 0x2029, 0x202F, 0x205F, 0x3000]

/-- Whether a character has the property White_Space. -/
def isBlank (c : Char) : Bool :=
  let n := c.toNat
  (9 ≤ n && n ≤ 13) || n = 32 || wideBlanks.contains n || (0x2000 ≤ n && n ≤ 0x200A)

/-- The characters from the first that is no blank. -/
def skipBlanks : List Char → List Char
  | [] => []
  | c :: rest => if isBlank c then skipBlanks rest else c :: rest

/-- Whether a text holds blanks only. -/
def isBlankText (s : String) : Bool := s.toList.all isBlank

/-- Every blank of ASCII is one. -/
example : [' ', '\t', '\n', '\r', Char.ofNat 11, Char.ofNat 12].all isBlank = true := by decide

/-- A byte order mark and a zero-width space are no blanks. -/
example : isBlank (Char.ofNat 0xFEFF) = false ∧ isBlank (Char.ofNat 0x200B) = false := by decide

end RecordFilter.Text
