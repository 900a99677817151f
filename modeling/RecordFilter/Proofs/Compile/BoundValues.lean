import RecordFilter.Proofs.Compile.PlainLeaves
import RecordFilter.Proofs.Json.Floats
import RecordFilter.Proofs.Sql.Fragments

/-! The values that comparisons bind. A scalar is bound as it was written, except that the integers too large for a sign
    are bound as floats: the float is the nearest one there is, and few of these integers are floats themselves. -/

namespace RecordFilter

/-- The number that a value is, unless it is none. -/
def Json.number? : Json → Option ℚ
  | .int n => some (n : ℚ)
  | .float x => floatValue? x
  | _ => none

namespace Compile
open Sql

/-- A comparison with a column binds its value and nothing else. -/
theorem params_compare {left : Expr} (hleft : left.fragment.params = []) (op : Operator) (p : Param) (unaccent : Bool) :
    (Cond.compare left op p unaccent).fragment.params = [p] := by
  rw [Cond.fragment]
  simp only [Fragment.params_append, Fragment.params_unaccented, hleft, Fragment.params_text, List.nil_append]
  rfl

/-- A comparison that does not search within texts binds the value as it is. -/
theorem comparison_params {l : Leaf} (column : Column) {v : Json} (unaccent : Bool) {p : Param}
    (hop : l.op.isContains = false) (hp : Param.ofJson? v = some p) :
    ∃ c, comparison l column v unaccent = .ok c ∧ c.fragment.params = [p] := by
  unfold comparison
  dsimp only
  rw [if_neg (by rw [hop]; exact Bool.false_ne_true), hp]
  dsimp only
  have hleft := Fragment.params_cast l.op.isPattern column
  generalize (if l.op.isPattern then Expr.cast column else .column column) = left at hleft ⊢
  have hgroup : (Cond.group (.compare left l.op p (l.op.isPattern && unaccent))).fragment.params = [p] := by
    rw [Cond.fragment]
    simp [params_compare hleft]
  split
  · refine ⟨_, rfl, ?_⟩
    rw [Cond.fragment, Cond.fragment]
    simp [Fragment.or, Fragment.join, hgroup]
  · exact ⟨_, rfl, hgroup⟩

/-- Every scalar is bound, and a comparison binds just that. What is bound is the scalar as it was written, unless it is
    an integer too large for a sign. Such an integer that fits 64 bits is bound as a float, of all floats one whose number
    is nearest to it, and the number is the integer just where that is a multiple of 2048. -/
theorem scalar_bound {v : Json} (hv : v.isScalar) :
    ∃ p, Param.ofJson? v = some p ∧
      (∀ (l : Leaf) (column : Column) (unaccent : Bool), l.op.isContains = false →
        ∃ c, comparison l column v unaccent = .ok c ∧ c.fragment.params = [p]) ∧
      ((∀ n, v = .int n → n < Json.signedLimit) → p.toJson = v) ∧
      ∀ n, v = .int n → Json.signedLimit ≤ n → n < Json.unsignedLimit →
        ∃ x a, p.toJson = .float x ∧ p.toJson.number? = some a ∧
          (∀ y b, Json.floatValue? y = some b → |a - n| ≤ |b - n|) ∧ (p.toJson.number? = v.number? ↔ 2048 ∣ n) := by
  obtain ⟨p, hp⟩ : ∃ p, Param.ofJson? v = some p := by
    cases v with
    | arr items => cases hv
    | obj members => cases hv
    | _ => exact ⟨_, rfl⟩
  refine ⟨p, hp, fun l column unaccent hop => comparison_params column unaccent hop hp, fun hsmall => ?_,
    fun n hn hlow hhigh => ?_⟩
  · cases v with
    | int n =>
      rw [Param.ofJson?, if_pos (hsmall n rfl)] at hp
      cases hp
      rfl
    | _ => cases hp <;> rfl
  · subst hn
    rw [Param.ofJson?, if_neg (by omega)] at hp
    cases hp
    obtain ⟨a, hvalue, hnearest, hexact⟩ := Json.floatValue?_ofInt (n := n) hlow hhigh
    refine ⟨_, a, rfl, hvalue, hnearest, ?_⟩
    show Json.floatValue? (Float.ofInt n) = some (n : ℚ) ↔ _
    rw [hvalue, Option.some_inj, hexact]

/-- The first multiple of 2048 after 2^63 keeps its value as a float. -/
theorem scalar_bound_multiple :
    let v := Json.int 0x8000000000000800
    v.isScalar ∧ ∃ p, Param.ofJson? v = some p ∧ p.toJson.number? = v.number? := by
  intro v
  obtain ⟨p, hp, -, -, hlarge⟩ := scalar_bound (v := v) rfl
  obtain ⟨x, a, -, -, -, hexact⟩ := hlarge 0x8000000000000800 rfl (by decide) (by decide)
  exact ⟨rfl, p, hp, hexact.mpr (by decide)⟩

/-- The largest integer that fits 64 bits is bound as another number. -/
theorem largest_integer_inexact :
    ¬∀ v : Json, v.isScalar → (∀ n, v = .int n → -2 ^ 63 ≤ n ∧ n < 2 ^ 64) →
      ∃ p, Param.ofJson? v = some p ∧ (p.toJson = v ∨ ∃ q, p.toJson.number? = some q ∧ v.number? = some q) := by
  intro hall
  obtain ⟨p, hp, hsame⟩ := hall (.int 0xffffffffffffffff) rfl fun n hn => by
    cases hn
    decide
  cases hp
  rcases hsame with hsame | ⟨q, hq, hq'⟩
  · cases hsame
  · obtain ⟨a, ha, -, hexact⟩ := Json.floatValue?_ofInt (n := 0xffffffffffffffff) (by decide) (by decide)
    cases hq'
    cases ha.symm.trans hq
    exact absurd (hexact.mp rfl) (by decide)

end Compile
end RecordFilter
