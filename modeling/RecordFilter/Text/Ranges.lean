/-! Sets of numbers as ascending ranges, each given by its first and last number. -/

namespace RecordFilter.Text

/-- Whether a number lies in one of some ascending ranges. The search ends at the first range that
    starts above the number. -/
def inRanges : List (Nat × Nat) → Nat → Bool
  | [], _ => false
  | r :: rest, n => r.1 ≤ n && (n ≤ r.2 || inRanges rest n)

end RecordFilter.Text
