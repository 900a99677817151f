import Mathlib.Data.List.Infix

/-! The patterns of LIKE, on characters. A pattern without wildcards and with a percent sign behind it finds the texts that
    start with it. -/

namespace RecordFilter.Sql

/-- Whether LIKE finds a text by a pattern: `%` stands for any text and `_` for any character. Behind a backslash a
    character stands for itself, and nothing is found by a pattern with none behind its last backslash. -/
def likes : List Char → List Char → Bool
  | [], text => text.isEmpty
  | '%' :: pattern, text => text.tails.any (likes pattern)
  | '_' :: pattern, text =>
    match text with
    | [] => false
    | _ :: rest => likes pattern rest
  | '\\' :: pattern, text =>
    match pattern, text with
    | c :: pattern, d :: rest => c == d && likes pattern rest
    | _, _ => false
  | c :: pattern, text =>
    match text with
    | [] => false
    | d :: rest => c == d && likes pattern rest

/-- Whether a character stands for something else in a pattern. -/
def isWildcard (c : Char) : Bool := c = '%' || c = '_' || c = '\\'

theorem isWildcard_eq_false_iff {c : Char} : isWildcard c = false ↔ c ≠ '%' ∧ c ≠ '_' ∧ c ≠ '\\' := by
  simp [isWildcard, and_assoc]

theorem likes_cons {c : Char} (h : isWildcard c = false) (pattern : List Char) (d : Char) (text : List Char) :
    likes (c :: pattern) (d :: text) = (c == d && likes pattern text) := by
  obtain ⟨hany, hone, hescape⟩ := isWildcard_eq_false_iff.mp h
  rw [likes] <;> assumption

theorem likes_cons_nil {c : Char} (h : isWildcard c = false) (pattern : List Char) : likes (c :: pattern) [] = false := by
  obtain ⟨hany, hone, hescape⟩ := isWildcard_eq_false_iff.mp h
  rw [likes] <;> assumption

theorem likes_any (text : List Char) : likes ['%'] text = true := by
  rw [likes, List.any_eq_true]
  exact ⟨[], (List.mem_tails _ _).mpr List.nil_suffix, rfl⟩

theorem likes_append_any {front : List Char} (h : front.all (!isWildcard ·)) (text : List Char) :
    likes (front ++ ['%']) text = true ↔ front <+: text := by
  induction front generalizing text with
  | nil => simp [likes_any]
  | cons c front ih =>
    rw [List.all_cons, Bool.and_eq_true, Bool.not_eq_true'] at h
    cases text with
    | nil => simp [likes_cons_nil h.1]
    | cons d text => rw [List.cons_append, likes_cons h.1, Bool.and_eq_true, beq_iff_eq, ih h.2, List.cons_prefix_cons]

example : likes "1/2/%".toList "1/23/".toList = false := by decide

end RecordFilter.Sql
