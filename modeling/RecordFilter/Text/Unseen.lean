import RecordFilter.Text.Blank
import RecordFilter.Text.Joining
import RecordFilter.Text.Unassigned

/-! Characters that cannot be seen on their own, from the Unicode categories of version 17. -/

namespace RecordFilter.Text

/-- The control characters: the Unicode category Cc. -/
def controls : List (Nat × Nat) := [(0x00, 0x1F), (0x7F, 0x9F)]

/-- The characters that only steer the text around them: the Unicode category Cf. -/
def steering : List (Nat × Nat) :=
  [(0xAD, 0xAD), (0x600, 0x605), (0x61C, 0x61C), (0x6DD, 0x6DD), (0x70F, 0x70F), (0x890, 0x891),
    (0x8E2, 0x8E2), (0x180E, 0x180E), (0x200B, 0x200F), (0x202A, 0x202E), (0x2060, 0x2064),
    (0x2066, 0x206F), (0xFEFF, 0xFEFF), (0xFFF9, 0xFFFB), (0x110BD, 0x110BD), (0x110CD, 0x110CD),
    (0x13430, 0x1343F), (0x1BCA0, 0x1BCA3), (0x1D173, 0x1D17A), (0xE0001, 0xE0001),
    (0xE0020, 0xE007F)]

/-- The characters whose looks are left to private agreement: the Unicode category Co. -/
def privateUse : List (Nat × Nat) :=
  [(0xE000, 0xF8FF), (0xF0000, 0xFFFFD), (0x100000, 0x10FFFD)]

/-- Whether a character has no shape of its own. The space has one: its width. -/
def isUnseen (c : Char) : Bool :=
  isBlank c && c ≠ ' ' || inRanges controls c.toNat || inRanges joiningMarks c.toNat
    || inRanges steering c.toNat || inRanges privateUse c.toNat || inRanges unassigned c.toNat

/-- Every character of ASCII from the space to the tilde is seen. -/
example : ((List.range' 32 95).all fun n => !isUnseen (Char.ofNat n)) = true := by decide +kernel

/-- A vowel sign beside its consonant is seen, the mark that takes a vowel away is not. -/
example : isUnseen (Char.ofNat 0x93F) = false ∧ isUnseen (Char.ofNat 0x94D) = true := by
  decide +kernel

/-- A sound mark that is a letter of its own joins nothing. -/
example : isUnseen (Char.ofNat 0xFF9E) = false ∧ isUnseen (Char.ofNat 0x3099) = true := by
  decide +kernel

end RecordFilter.Text
