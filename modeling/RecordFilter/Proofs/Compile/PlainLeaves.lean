import RecordFilter.Compile.Reduce
import RecordFilter.Proofs.Compile.Kinds
import RecordFilter.Proofs.Sql.Truth

/-! Leaves on plain columns: a comparison and its opposite have opposite values on every row, also where the
    column is null. -/

namespace RecordFilter

namespace Operator

/-- The operators of an order. -/
def isOrdering : Operator → Bool
  | lt | le | gt | ge => true
  | _ => false

/-- Equality and its negation. -/
def isEquality : Operator → Bool
  | eq | ne => true
  | _ => false

/-- Membership in a list and its negation. -/
def isMembership : Operator → Bool
  | within | notIn => true
  | _ => false

end Operator

/-- Whether the value is neither a list nor an object. -/
def Json.isScalar : Json → Bool
  | .arr _ | .obj _ => false
  | _ => true

/-- A scalar that is no way to write "no value" has a value to bind. -/
theorem Sql.Param.ofJson?_of_scalar {v : Json} (hs : v.isScalar) (hset : v.isUnset = false) :
    ∃ p, ofJson? v = some p ∧ p ≠ .null := by
  cases v with
  | null => cases hset
  | arr items => cases hs
  | obj members => cases hs
  | bool b => exact ⟨_, rfl, nofun⟩
  | float x => exact ⟨_, rfl, nofun⟩
  | str s => exact ⟨_, rfl, nofun⟩
  | int n =>
    refine ⟨_, rfl, ?_⟩
    split <;> exact nofun

namespace Compile
open Sql

variable {V : Type} {e : Engine V} {row : Row V}

/-- The second condition holds on the row just where the first one does not. -/
def Opposite (e : Engine V) (row : Row V) (c c' : Cond) : Prop := (c'.truth e row).holds = !(c.truth e row).holds

theorem bound_of_ne_null {p : Param} (h : p ≠ .null) : e.bound p = some (e.value p) := by
  cases p with
  | null => exact absurd rfl h
  | _ => rfl

/-! ### Lists -/

/-- No value is null. -/
def Wanted.Known (w : Wanted) : Prop := ∀ p ∈ w.params, p ≠ .null

theorem Wanted.Known.add {w : Wanted} (h : w.Known) {p : Param} (hp : p ≠ .null) : (w.add p).Known := by
  intro p' hp'
  rcases List.mem_append.mp hp' with hp' | hp'
  · exact h p' hp'
  · rw [List.mem_singleton.mp hp']
    exact hp

theorem Wanted.Known.addBool {w : Wanted} (h : w.Known) (b : Bool) : (w.addBool b).Known := by
  unfold Wanted.addBool
  split
  · exact h
  · exact h.add nofun

/-- A scalar can be added to what is wanted, and null is added as the unset field. -/
theorem Wanted.Known.addItem? {w : Wanted} (h : w.Known) (isBoolean : Bool) {v : Json} (hv : v.isScalar) :
    ∃ w', w.addItem? isBoolean v = some w' ∧ w'.Known := by
  cases v with
  | null => exact ⟨_, rfl, h⟩
  | arr items => cases hv
  | obj members => cases hv
  | float x => exact ⟨_, rfl, h.add nofun⟩
  | str s => exact ⟨_, rfl, h.add nofun⟩
  | int n =>
    refine ⟨_, rfl, h.add ?_⟩
    split <;> exact nofun
  | bool b =>
    cases isBoolean
    · cases b
      · exact ⟨_, rfl, h⟩
      · exact ⟨_, rfl, h.add nofun⟩
    · cases b
      · exact ⟨_, rfl, Wanted.Known.addBool (w := w.addUnset) h false⟩
      · exact ⟨_, rfl, h.addBool true⟩

theorem Wanted.Known.addItems? {w : Wanted} (h : w.Known) (isBoolean : Bool) {items : List Json}
    (hitems : ∀ v ∈ items, v.isScalar) : ∃ w', w.addItems? isBoolean items = some w' ∧ w'.Known := by
  induction items generalizing w with
  | nil => exact ⟨w, rfl, h⟩
  | cons v rest ih =>
    obtain ⟨w', hw', hknown⟩ := h.addItem? isBoolean (hitems v List.mem_cons_self)
    obtain ⟨w'', hw'', hknown'⟩ := ih hknown fun v hv => hitems v (List.mem_cons_of_mem _ hv)
    refine ⟨w'', ?_, hknown'⟩
    rw [Wanted.addItems?, hw']
    exact hw''

theorem Wanted.Known.opposite {w : Wanted} (h : w.Known) (column : Column) :
    Opposite e row (w.condition (.column column) column true) (w.condition (.column column) column false) := by
  obtain ⟨params, unset⟩ := w
  cases params with
  | nil => cases unset <;> simp [Opposite, Wanted.condition, Cond.truth]
  | cons p rest =>
    -- Null is not known to be in the list; any other value is in it or not.
    have hbound : ∀ b ∈ (p :: rest).map e.bound, b ≠ none := by
      intro b hb
      obtain ⟨p', hp', rfl⟩ := List.mem_map.mp hb
      rw [bound_of_ne_null (h p' hp')]
      exact nofun
    cases hrow : row column with
    | none =>
      have hmember : e.member none ((p :: rest).map e.bound) = .unknown := e.member_none nofun
      cases unset <;> simp_all [Opposite, Wanted.condition, Cond.truth, Expr.value, Values.members]
    | some a =>
      have hknown := Truth.holds_not (e.member_some a hbound)
      cases unset <;> simp_all [Opposite, Wanted.condition, Cond.truth, Expr.value, Values.members]

/-! ### Single values -/

/-- A comparison with a value that counts as true, as a condition. -/
def comparisonWith (op : Operator) (column : Column) (p : Param) (unaccent : Bool) : Cond :=
  let base := Cond.group
    (.compare (if op.isPattern then .cast column else .column column) op p (op.isPattern && unaccent))
  if op.isNegative then .or base (.isNull column) else base

theorem comparison_truthy {l : Leaf} {column : Column} {v : Json} {unaccent : Bool} {p : Param} (hv : v.isTruthy)
    (hp : (if l.op.isContains then some (containsPattern v) else Param.ofJson? v) = some p) :
    comparison l column v unaccent = .ok (comparisonWith l.op column p unaccent) := by
  unfold comparison comparisonWith
  dsimp only
  rw [hp]
  cases l.op.isNegative <;> simp [hv]

/-- The operators of single values that have an opposite which also matches null. -/
theorem comparisonWith_opposite {op op' : Operator} (hop : op = .eq ∨ op = .like ∨ op = .ilike)
    (hop' : op.negate? = some op') (column : Column) {p : Param} (hp : p ≠ .null) (unaccent : Bool) :
    Opposite e row (comparisonWith op column p unaccent) (comparisonWith op' column p unaccent) := by
  have hbound := bound_of_ne_null (e := e) hp
  rcases hop with rfl | rfl | rfl <;> cases hop' <;> cases hrow : row column <;> cases unaccent <;>
    simp [Opposite, comparisonWith, Operator.isPattern, Operator.isContains, Operator.isNegative, Cond.truth, Expr.value,
      Engine.plain, Engine.test, hrow, hbound]

/-- A boolean column holds null or a boolean. -/
def BooleanAt (e : Engine V) (row : Row V) (column : Column) : Prop :=
  row column = none ∨ ∃ b, row column = some (e.value (.bool b))

/-! ### Leaves -/

/-- The comparisons of a plain column: with a list of scalars, with an unset value, or with a scalar that
    counts as true. -/
inductive ComparesPlainly : Leaf → Prop
  | list {left op items} : op = .within ∨ op = .notIn → (∀ v ∈ items, Json.isScalar v) →
      ComparesPlainly ⟨left, op, .value (.arr items)⟩
  | unset {left op v} : op = .eq ∨ op = .ne → v.isUnset → ComparesPlainly ⟨left, op, .value v⟩
  | equal {left op v} : op = .eq ∨ op = .ne → v.isScalar → v.isTruthy → ComparesPlainly ⟨left, op, .value v⟩
  | contains {left op v} : op.isContains → v.isScalar → v.isTruthy → ComparesPlainly ⟨left, op, .value v⟩

/-- Both a leaf and the leaf with another operator have conditions, and these are opposite on every row that
    has a boolean in a boolean column. -/
def OppositeLeaves (l : Leaf) (op : Operator) (column : Column) (v : Json) (isBoolean unaccent : Bool) : Prop :=
  ∃ c c', literalLeaf l column v isBoolean unaccent = .ok c ∧
    literalLeaf { l with op := op } column v isBoolean unaccent = .ok c' ∧
    ∀ {V : Type} (e : Engine V) (row : Row V), (isBoolean → BooleanAt e row column) → Opposite e row c c'

variable {left : String} {column : Column} {v : Json} {isBoolean unaccent : Bool}

theorem list_opposite {r : Operand} {items : List Json} (hitems : ∀ v ∈ items, Json.isScalar v) :
    OppositeLeaves ⟨left, .within, r⟩ .notIn column (.arr items) isBoolean unaccent := by
  have hnone : Wanted.Known {} := nofun
  obtain ⟨w, hw, hknown⟩ := hnone.addItems? isBoolean hitems
  have hw' : Wanted.ofItems? isBoolean items = some w := hw
  refine ⟨_, _, ?_, ?_, fun _ _ _ => hknown.opposite column⟩
  · simp [literalLeaf, inValues, hw']
  · simp [literalLeaf, inValues, hw']

theorem unset_opposite {r : Operand} (hv : v.isUnset) :
    OppositeLeaves ⟨left, .eq, r⟩ .ne column v isBoolean unaccent := by
  cases isBoolean
  · refine ⟨.group (.isNull column), .group (.notNull column), ?_, ?_, ?_⟩
    · simp [literalLeaf, equality, hv]
    · simp [literalLeaf, equality, hv]
    · intro V e row _
      simp [Opposite, Cond.truth]
  · refine ⟨.or (.isNull column) (.isFalse column), .and (.notNull column) (.notFalse column), ?_, ?_, ?_⟩
    · simp [literalLeaf, equality, hv]
    · simp [literalLeaf, equality, hv]
    · intro V e row _
      have hbool : e.bound (.bool false) = some (e.value (.bool false)) := rfl
      cases hrow : row column <;> simp [Opposite, Cond.truth, Engine.test, hrow, hbool]

/-- On a boolean column, what is not `true` is null or `false`. -/
theorem true_opposite (hcolumn : BooleanAt e row column) {p : Param} (hp : p = .bool true) :
    Opposite e row (comparisonWith .eq column p unaccent) (.or (.isNull column) (.isFalse column)) := by
  have hbool : ∀ b, e.bound (.bool b) = some (e.value (.bool b)) := fun _ => rfl
  subst hp
  rcases hcolumn with hrow | ⟨b, hrow⟩
  · simp [Opposite, comparisonWith, Operator.isPattern, Operator.isContains, Operator.isNegative, Cond.truth, Expr.value,
      Engine.plain, hrow]
  · cases b <;> simp [Opposite, comparisonWith, Operator.isPattern, Operator.isContains, Operator.isNegative, Cond.truth,
      Expr.value, Engine.plain, Engine.test, hrow, hbool, e.equal_bool]

theorem unset_eq_false_of_truthy (hv : v.isTruthy) : v.isUnset = false := by
  cases v with
  | null => cases hv
  | bool b =>
    cases b
    · cases hv
    · rfl
  | _ => rfl

theorem equal_opposite {r : Operand} (hs : v.isScalar) (hv : v.isTruthy) :
    OppositeLeaves ⟨left, .eq, r⟩ .ne column v isBoolean unaccent := by
  have hset := unset_eq_false_of_truthy hv
  obtain ⟨p, hp, hnull⟩ := Param.ofJson?_of_scalar hs hset
  have heq : comparison ⟨left, .eq, r⟩ column v unaccent = .ok (comparisonWith .eq column p unaccent) :=
    comparison_truthy hv hp
  have hne : comparison ⟨left, .ne, r⟩ column v unaccent = .ok (comparisonWith .ne column p unaccent) :=
    comparison_truthy hv hp
  by_cases htrue : isBoolean = true ∧ v = .bool true
  · obtain ⟨rfl, rfl⟩ := htrue
    cases hp
    exact ⟨_, _, heq, rfl, fun _ _ hcolumn => true_opposite (hcolumn rfl) rfl⟩
  · refine ⟨_, _, ?_, ?_, fun _ _ _ => comparisonWith_opposite (Or.inl rfl) rfl column hnull unaccent⟩
    · rw [← heq]
      cases isBoolean <;> simp [literalLeaf, equality, hset]
    · rw [← hne]
      cases isBoolean
      · simp [literalLeaf, hset]
      · have hother : v ≠ .bool true := fun h => htrue ⟨rfl, h⟩
        simp [literalLeaf, equality, hset, hother]

theorem contains_opposite {r : Operand} {op op' : Operator} (hop : op = .like ∨ op = .ilike)
    (hop' : op.negate? = some op') (hv : v.isTruthy) :
    OppositeLeaves ⟨left, op, r⟩ op' column v isBoolean unaccent := by
  have hliteral : ∀ op : Operator, op.isContains → literalLeaf ⟨left, op, r⟩ column v isBoolean unaccent =
      .ok (comparisonWith op column (containsPattern v) unaccent) := by
    intro op hcontains
    rw [← comparison_truthy (l := ⟨left, op, r⟩) hv (by simp [hcontains])]
    cases op <;> first | rfl | cases hcontains
  have hboth : op.isContains ∧ op'.isContains := by
    rcases hop with rfl | rfl <;> cases hop' <;> exact ⟨rfl, rfl⟩
  have hnull : containsPattern v ≠ .null := by simp [containsPattern]
  exact ⟨_, _, hliteral op hboth.1, hliteral op' hboth.2, fun _ _ _ =>
    comparisonWith_opposite (Or.inr hop) hop' column hnull unaccent⟩

/-! ### Leaves of a model -/

/-- A comparison on a plain column of a model. -/
structure OnPlainColumn (r : Registry) (m : Model) (l : Leaf) : Prop where
  plain : classify r m l = .ok .plain
  compares : ComparesPlainly l

/-- The boolean columns of a table hold booleans or null. -/
def BooleansAt (e : Engine V) (row : Row V) (p : Place) : Prop :=
  ∀ name f, p.model.field? name = some f → f.type = .boolean → BooleanAt e row (p.column name)

/-- A row of the table at a place. -/
structure TableRow (e : Engine V) (p : Place) where
  columns : Row V
  booleans : BooleansAt e columns p

namespace ComparesPlainly
variable {l : Leaf}

/-- Comparisons of this kind come in pairs of opposites. -/
theorem negate? (h : ComparesPlainly l) : ∃ op, l.op.negate? = some op ∧ ComparesPlainly { l with op := op } := by
  cases h with
  | list hop hitems => rcases hop with rfl | rfl <;> exact ⟨_, rfl, .list (by simp) hitems⟩
  | unset hop hv => rcases hop with rfl | rfl <;> exact ⟨_, rfl, .unset (by simp) hv⟩
  | equal hop hs hv => rcases hop with rfl | rfl <;> exact ⟨_, rfl, .equal (by simp) hs hv⟩
  | @contains left op v hop hs hv =>
    cases op <;> first | exact ⟨_, rfl, .contains rfl hs hv⟩ | cases hop

theorem not_hierarchy (h : ComparesPlainly l) : l.op.isHierarchy = false := by
  obtain ⟨op, hop, -⟩ := h.negate?
  rcases l with ⟨left, op', right⟩
  cases op' <;> first | rfl | cases hop

theorem ne_eqIfSet (h : ComparesPlainly l) : l.op ≠ .eqIfSet := by
  obtain ⟨op, hop, -⟩ := h.negate?
  rintro heq
  rw [heq] at hop
  cases hop

theorem leafNotice? (h : ComparesPlainly l) : leafNotice? l = none := by
  cases h with
  | list hop _ => rcases hop with rfl | rfl <;> rfl
  | unset hop _ => rcases hop with rfl | rfl <;> rfl
  | equal hop _ _ => rcases hop with rfl | rfl <;> rfl
  | @contains left op v hop _ _ => cases op <;> first | rfl | cases hop

end ComparesPlainly

namespace OnPlainColumn
variable {r : Registry} {p : Place} {l : Leaf} {ctx : Context}

theorem field (h : OnPlainColumn r p.model l) : ∃ f, p.model.field? l.left = some f := by
  cases classify_ok h.plain with
  | plain hf _ _ => exact ⟨_, hf⟩

theorem with_op (h : OnPlainColumn r p.model l) {op : Operator} (hc : ComparesPlainly { l with op := op }) :
    OnPlainColumn r p.model { l with op := op } := by
  cases classify_ok h.plain with
  | plain _ hrest _ => exact ⟨classify_with _ (hc.not_hierarchy.trans h.compares.not_hierarchy.symm) h.plain, hc⟩

/-- A positive comparison and its opposite have conditions, and these are opposite. -/
theorem opposite_of_positive (h : OnPlainColumn r p.model l) (hpos : l.op.isNegative = false) (ctx : Context)
    {op : Operator} (hop : l.op.negate? = some op) :
    ∃ c c', plainCondition l p ctx = .ok c ∧ plainCondition { l with op := op } p ctx = .ok c' ∧
      ∀ {V : Type} (e : Engine V) (row : TableRow e p), Opposite e row.columns c c' := by
  obtain ⟨f, hf⟩ := h.field
  suffices hliteral : ∃ v, l.right = .value v ∧
      OppositeLeaves l op (p.column l.left) v (f.type = .boolean) ctx.unaccent by
    obtain ⟨v, hv, c, c', hc, hc', hopposite⟩ := hliteral
    refine ⟨c, c', ?_, ?_, fun e row => hopposite e _ fun hb => row.booleans _ f hf (of_decide_eq_true hb)⟩
    · simp [plainCondition, hf, hv, hc]
    · rw [hv] at hc'
      simp [plainCondition, hf, hv, hc']
  cases h.compares with
  | list hop' hitems =>
    rcases hop' with rfl | rfl <;> cases hop
    · exact ⟨_, rfl, list_opposite hitems⟩
    · cases hpos
  | unset hop' hv =>
    rcases hop' with rfl | rfl <;> cases hop
    · exact ⟨_, rfl, unset_opposite hv⟩
    · cases hpos
  | equal hop' hs hv =>
    rcases hop' with rfl | rfl <;> cases hop
    · exact ⟨_, rfl, equal_opposite hs hv⟩
    · cases hpos
  | @contains left op' v hop' hs hv =>
    refine ⟨_, rfl, contains_opposite ?_ hop hv⟩
    have hpos' : op'.isNegative = false := hpos
    cases op' <;> first | exact Or.inl rfl | exact Or.inr rfl | contradiction

/-- A comparison and its opposite have conditions, and these are opposite. -/
theorem opposite (h : OnPlainColumn r p.model l) (ctx : Context) {op : Operator} (hop : l.op.negate? = some op) :
    ∃ c c', plainCondition l p ctx = .ok c ∧ plainCondition { l with op := op } p ctx = .ok c' ∧
      ∀ {V : Type} (e : Engine V) (row : TableRow e p), Opposite e row.columns c c' := by
  cases hpos : l.op.isNegative with
  | false => exact h.opposite_of_positive hpos ctx hop
  | true =>
    -- Then the opposite is the positive one of the two.
    obtain ⟨op', hop', hc⟩ := h.compares.negate?
    cases hop.symm.trans hop'
    have hpos' : op.isNegative = false := by
      rcases l with ⟨left, lop, right⟩
      cases lop <;> cases hop <;> first | rfl | cases hpos
    obtain ⟨c, c', hl, hl', hopposite⟩ :=
      (h.with_op hc).opposite_of_positive hpos' ctx (Operator.negate?_symm hop)
    refine ⟨c', c, hl', hl, fun e row => ?_⟩
    rw [Opposite, hopposite e row, Bool.not_not]

end OnPlainColumn

end Compile
end RecordFilter
