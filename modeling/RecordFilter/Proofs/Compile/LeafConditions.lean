import RecordFilter.Compile.Leaf
import RecordFilter.Proofs.Sql.Conditions

/-! What the condition of a leaf is made of. A leaf on a plain column asks whether the column is set, compares it with a
    value, or looks for it in a list or in the rows of the leaf's own subquery. So a property of these conditions that
    their combinations keep holds of the condition of every leaf. -/

namespace RecordFilter.Compile
open Sql

/-- The tests of a column and its comparisons with values have the property, and combinations keep it. No column is
    compared by an operator that asks for a hierarchy, or for equality if a value is set. -/
structure ColumnConditions (C : Cond → Prop) (column : Column) : Prop where
  literal (b : Bool) : C (.literal b)
  isNull : C (.isNull column)
  notNull : C (.notNull column)
  isFalse : C (.isFalse column)
  notFalse : C (.notFalse column)
  compare {left : Expr} {op : Operator} (param : Param) (unaccent : Bool) :
    left.source = column → op ≠ .eqIfSet → op.isHierarchy = false → C (.compare left op param unaccent)
  member {left : Expr} (positive : Bool) (params : List Param) :
    left.source = column → C (.member left positive (.params params))
  group {c : Cond} : C c → C (.group c)
  and {a b : Cond} : C a → C b → C (.and a b)
  or {a b : Cond} : C a → C b → C (.or a b)

namespace ColumnConditions
variable {C : Cond → Prop} {column : Column} {l : Leaf} {v : Json} {isBoolean unaccent : Bool} {c : Cond} {p : Place}
  {ctx : Context}

theorem of_wanted (h : ColumnConditions C column) (w : Wanted) {left : Expr} (hleft : left.source = column)
    (positive : Bool) : C (w.condition left column positive) := by
  have hmember : ∀ positive, C (.group (.member left positive (.params w.params))) := fun positive =>
    h.group (h.member positive w.params hleft)
  unfold Wanted.condition
  split
  · exact h.literal _
  · exact h.literal _
  · exact h.group h.isNull
  · exact h.group h.notNull
  · exact hmember _
  · exact h.or (hmember _) h.isNull
  · exact h.or (hmember _) h.isNull
  · exact h.and (hmember _) h.notNull

theorem of_inValues (h : ColumnConditions C column) (hc : inValues l column v isBoolean = .ok c) : C c := by
  unfold inValues at hc
  dsimp only at hc
  split at hc
  · cases hc
    refine h.group ?_
    split
    · exact h.notNull
    · exact h.isNull
  · split at hc <;> cases hc
    exact h.of_wanted _ rfl _
  · cases hc

theorem of_inSubquery (h : ColumnConditions C column) {sub : Select}
    (hsub : ∀ positive, C (.member (.column column) positive (.select sub))) (hc : inSubquery l column sub = .ok c) :
    C c := by
  unfold inSubquery at hc
  split at hc <;> cases hc <;> exact h.group (hsub _)

theorem of_comparison (h : ColumnConditions C column) (hset : l.op ≠ .eqIfSet) (hhierarchy : l.op.isHierarchy = false)
    (hc : comparison l column v unaccent = .ok c) : C c := by
  have hleft : (if l.op.isPattern then Expr.cast column else .column column).source = column := by
    split <;> rfl
  unfold comparison at hc
  dsimp only at hc
  split at hc
  · cases hc
  · rename_i param _
    have hbase := h.group (h.compare param (l.op.isPattern && unaccent) hleft hset hhierarchy)
    split at hc <;> cases hc
    · exact h.or hbase h.isNull
    · exact hbase

theorem of_equality (h : ColumnConditions C column) (hset : l.op ≠ .eqIfSet) (hhierarchy : l.op.isHierarchy = false)
    (hc : equality l column v isBoolean unaccent = .ok c) : C c := by
  unfold equality at hc
  split at hc
  · cases hc
    exact h.or h.isNull h.isFalse
  · cases hc
    exact h.or h.isNull h.isFalse
  · cases hc
    exact h.and h.notNull h.notFalse
  · cases hc
    exact h.group h.isNull
  · cases hc
    exact h.group h.notNull
  · exact h.of_comparison hset hhierarchy hc

/-- Of the operators that `comparison` does not know, an optional equality becomes one that it does. -/
theorem of_literalLeaf (h : ColumnConditions C column) (hc : literalLeaf l column v isBoolean unaccent = .ok c) : C c := by
  unfold literalLeaf at hc
  split at hc
  · exact h.of_inValues hc
  · exact h.of_inValues hc
  · cases hc
  · cases hc
  · split at hc
    · cases hc
      exact h.literal true
    · split at hc
      · exact h.of_equality (l := { l with op := .eq }) nofun rfl hc
      · exact h.of_comparison (l := { l with op := .eq }) nofun rfl hc
  · rename_i hop
    have hset : l.op ≠ .eqIfSet := by rw [hop]; nofun
    have hhierarchy : l.op.isHierarchy = false := by rw [hop]; rfl
    split at hc
    · exact h.of_equality hset hhierarchy hc
    · exact h.of_comparison hset hhierarchy hc
  · rename_i hop
    have hset : l.op ≠ .eqIfSet := by rw [hop]; nofun
    have hhierarchy : l.op.isHierarchy = false := by rw [hop]; rfl
    split at hc
    · exact h.of_equality hset hhierarchy hc
    · exact h.of_comparison hset hhierarchy hc
  · rename_i hchild hparent hset _ _
    have hhierarchy : l.op.isHierarchy = false := by
      cases hop : l.op <;> first | rfl | exact absurd hop hchild | exact absurd hop hparent
    exact h.of_comparison hset hhierarchy hc

/-- The condition of a leaf on a plain column has the property, if it has it where it comes from a subquery. -/
theorem of_plainCondition (h : ColumnConditions C (p.column l.left))
    (hsub : ∀ sub, l.right = .subquery sub → ∀ positive, C (.member (.column (p.column l.left)) positive (.select sub)))
    (hc : plainCondition l p ctx = .ok c) : C c := by
  unfold plainCondition at hc
  split at hc
  · cases hc
  · split at hc
    · exact h.of_inSubquery (hsub _ ‹_›) hc
    · exact h.of_literalLeaf hc

/-- So does that of a leaf on a translated column, if its comparison with a value does. -/
theorem of_translatedCondition (h : ColumnConditions C (p.column l.left))
    (hbase : ∀ param, C (.compare (.translated (p.column l.left) ctx.lang) l.op param (l.op.isPattern && ctx.unaccent)))
    (hc : translatedCondition l p ctx = .ok c) : C c := by
  unfold translatedCondition at hc
  dsimp only at hc
  split at hc
  · cases hc
  · split at hc
    · split at hc
      · split at hc <;> cases hc
        exact h.of_wanted _ rfl _
      · cases hc
    · split at hc <;> cases hc
      split
      · exact h.or (h.group (hbase _)) h.isNull
      · exact h.group (hbase _)

end ColumnConditions
end RecordFilter.Compile
