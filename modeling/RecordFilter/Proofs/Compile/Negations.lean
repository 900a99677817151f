import RecordFilter.Proofs.Compile.PlainLeaves
import RecordFilter.Proofs.Compile.Recursion
import RecordFilter.Proofs.Sql.Database

/-! Equality and patterns beside their negations, for any scalar. Where the column has a value just one of the two holds,
    and where it is null too if the value counts as true or if equality takes it for "no value". Any other value that
    counts as false makes the two agree about null: zero and the empty text are neither equal nor unequal to it, and
    patterns of what counts as false match it in both polarities. -/

namespace RecordFilter.Compile
open Sql

variable {V : Type} {e : Engine V} {row : Row V} {op op' : Operator} {left : String} {column : Column} {v : Json} {q : Param}
  {isBoolean unaccent : Bool}

/-! ### Comparisons that match null or not -/

/-- A column compared with a bound value. With `orNull`, null matches too. -/
def compared (op : Operator) (column : Column) (q : Param) (unaccent orNull : Bool) : Cond :=
  let base := Cond.group
    (.compare (if op.isPattern then .cast column else .column column) op q (op.isPattern && unaccent))
  if orNull then .or base (.isNull column) else base

/-- With a value that counts as true, negative operators match null; with any other value, patterns do. -/
def matchesNull (op : Operator) (v : Json) : Bool := if v.isTruthy then op.isNegative else op.isContains

theorem comparison_eq_compared {l : Leaf}
    (hq : (if l.op.isContains then some (containsPattern v) else Param.ofJson? v) = some q) :
    comparison l column v unaccent = .ok (compared l.op column q unaccent (matchesNull l.op v)) := by
  have hnull : ((l.op.isContains && !v.isTruthy) || (v.isTruthy && l.op.isNegative)) = matchesNull l.op v := by
    cases hv : v.isTruthy <;> simp [matchesNull, hv]
  unfold comparison compared
  dsimp only
  rw [hq]
  dsimp only
  rw [hnull]
  split <;> rfl

theorem holds_compared_null (orNull : Bool) (hrow : row column = none) :
    ((compared op column q unaccent orNull).truth e row).holds = orNull := by
  have hbase : ((Cond.group (.compare (if op.isPattern then .cast column else .column column) op q
      (op.isPattern && unaccent))).truth e row).holds = false := by
    cases op.isPattern <;> cases unaccent <;> simp [Cond.truth, Expr.value, Engine.plain, hrow]
  unfold compared
  cases orNull
  · exact hbase
  · simp [Cond.truth, hrow]

/-- Where the column has a value, null does not matter. -/
theorem compared_opposite {a : V} (hop : op = .eq ∨ op = .like ∨ op = .ilike) (hop' : op.negate? = some op')
    (hq : q ≠ .null) (hrow : row column = some a) (orNull orNull' : Bool) :
    Opposite e row (compared op column q unaccent orNull) (compared op' column q unaccent orNull') := by
  have hbound := bound_of_ne_null (e := e) hq
  rcases hop with rfl | rfl | rfl <;> cases hop' <;> cases orNull <;> cases orNull' <;> cases unaccent <;>
    simp [Opposite, compared, Operator.isPattern, Operator.isContains, Cond.truth, Expr.value, Engine.plain, Engine.test,
      hrow, hbound]

/-! ### Values that count as false -/

/-- Values for which a leaf and its negation agree about null: those that count as false, unless equality takes them for
    "no value". -/
def AgreesOnNull (op : Operator) (v : Json) : Prop := v.isTruthy = false ∧ (op = .eq → v.isUnset = false)

/-- Then both are comparisons with the same value, and as to null they go by whether they compare patterns. -/
theorem AgreesOnNull.compared (h : AgreesOnNull op v) (hop : op = .eq ∨ op = .like ∨ op = .ilike)
    (hop' : op.negate? = some op') (hs : v.isScalar) (left : String) (r : Operand) (column : Column)
    (isBoolean unaccent : Bool) :
    ∃ q, q ≠ .null ∧ ∀ o, o = op ∨ o = op' →
      literalLeaf ⟨left, o, r⟩ column v isBoolean unaccent =
        .ok (Compile.compared o column q unaccent op.isContains) := by
  obtain ⟨hfalse, hset⟩ := h
  have hmatches : ∀ o, matchesNull o v = o.isContains := fun o => by simp [matchesNull, hfalse]
  rcases hop with rfl | hop
  · have hunset := hset rfl
    have hother : v ≠ .bool true := fun h => by
      rw [h] at hfalse
      cases hfalse
    obtain ⟨q, hq, hnull⟩ := Param.ofJson?_of_scalar hs hunset
    refine ⟨q, hnull, fun o ho => ?_⟩
    have hcontains : o.isContains = false := by
      cases hop'
      rcases ho with rfl | rfl <;> rfl
    have hcomparison : comparison ⟨left, o, r⟩ column v unaccent =
        .ok (Compile.compared o column q unaccent (matchesNull o v)) :=
      comparison_eq_compared (by simp [hcontains, hq])
    rw [hmatches, hcontains] at hcomparison
    refine Eq.trans ?_ hcomparison
    cases hop'
    rcases ho with rfl | rfl <;> cases isBoolean <;> simp [literalLeaf, equality, hunset, hother]
  · have hcontains : ∀ o, o = op ∨ o = op' → o.isContains = true := by
      rintro o (rfl | rfl) <;> rcases hop with rfl | rfl <;> cases hop' <;> rfl
    have hnull : containsPattern v ≠ .null := by simp [containsPattern]
    refine ⟨containsPattern v, hnull, fun o ho => ?_⟩
    have hcomparison : comparison ⟨left, o, r⟩ column v unaccent =
        .ok (Compile.compared o column (containsPattern v) unaccent (matchesNull o v)) :=
      comparison_eq_compared (by simp [hcontains o ho])
    rw [hmatches, hcontains o ho] at hcomparison
    rw [hcontains op (.inl rfl), ← hcomparison]
    rcases ho with rfl | rfl <;> rcases hop with rfl | rfl <;> cases hop' <;> rfl

/-! ### Leaves -/

/-- With any other value, the leaf and its negation are opposite. -/
theorem opposite_of_not_agrees {r : Operand} (h : ¬AgreesOnNull op v) (hop : op = .eq ∨ op = .like ∨ op = .ilike)
    (hop' : op.negate? = some op') (hs : v.isScalar) :
    OppositeLeaves ⟨left, op, r⟩ op' column v isBoolean unaccent := by
  cases hv : v.isTruthy with
  | true =>
    rcases hop with rfl | hop
    · cases hop'
      exact equal_opposite hs hv
    · exact contains_opposite hop hop' hv
  | false =>
    obtain ⟨rfl, hunset⟩ : op = .eq ∧ v.isUnset = true := by
      refine Classical.byContradiction fun hother => h ⟨hv, fun heq => ?_⟩
      exact Bool.eq_false_iff.mpr fun hunset => hother ⟨heq, hunset⟩
    cases hop'
    exact unset_opposite hunset

/-- On a row of the table, equality with a scalar or a pattern for it and the negation of the leaf are opposite, unless
    the column is null and the value makes the two agree about null. Then neither equality nor inequality holds, and both
    patterns do. -/
theorem negation_parts_rows {p : Place} {f : Field} (hf : p.model.field? left = some f)
    (hop : op = .eq ∨ op = .like ∨ op = .ilike) (hop' : op.negate? = some op') (hs : v.isScalar) (ctx : Context) :
    ∃ c c',
      plainCondition ⟨left, op, .value v⟩ p ctx = .ok c ∧
      plainCondition ⟨left, op', .value v⟩ p ctx = .ok c' ∧
      ∀ {V : Type} (e : Engine V) (row : TableRow e p),
        (Opposite e row.columns c c' ↔ ¬(row.columns (p.column left) = none ∧ AgreesOnNull op v)) ∧
        (row.columns (p.column left) = none → AgreesOnNull op v →
          (c.truth e row.columns).holds = op.isContains ∧ (c'.truth e row.columns).holds = op.isContains) := by
  have hplain : ∀ o, plainCondition ⟨left, o, .value v⟩ p ctx =
      literalLeaf ⟨left, o, .value v⟩ (p.column left) v (f.type = .boolean) ctx.unaccent := fun o => by
    simp [plainCondition, hf]
  by_cases hagrees : AgreesOnNull op v
  · obtain ⟨q, hnull, hliteral⟩ :=
      hagrees.compared hop hop' hs left (.value v) (p.column left) (f.type = .boolean) ctx.unaccent
    refine ⟨_, _, (hplain op).trans (hliteral op (.inl rfl)), (hplain op').trans (hliteral op' (.inr rfl)),
      fun e row => ?_⟩
    cases hrow : row.columns (p.column left) with
    | none =>
      have hboth : ∀ o, ((Compile.compared o (p.column left) q ctx.unaccent op.isContains).truth e row.columns).holds =
          op.isContains := fun o => holds_compared_null op.isContains hrow
      refine ⟨iff_of_false ?_ fun h => h ⟨rfl, hagrees⟩, fun _ _ => ⟨hboth op, hboth op'⟩⟩
      rw [Opposite, hboth op, hboth op']
      exact (Bool.eq_not_self _).mp
    | some a =>
      refine ⟨iff_of_true (compared_opposite hop hop' hnull hrow _ _) fun h => ?_, fun h => ?_⟩
      · cases h.1
      · cases h
  · have hleaves : OppositeLeaves ⟨left, op, .value v⟩ op' (p.column left) v (f.type = .boolean) ctx.unaccent :=
      opposite_of_not_agrees hagrees hop hop' hs
    obtain ⟨c, c', hc, hc', hopposite⟩ := hleaves
    refine ⟨c, c', (hplain op).trans hc, (hplain op').trans hc', fun e row => ⟨?_, fun _ h => absurd h hagrees⟩⟩
    have hrow := hopposite e row.columns fun hb => row.booleans _ f hf (of_decide_eq_true hb)
    exact iff_of_true hrow fun h => hagrees h.2

/-- A task of a priority. -/
def priorityModel : Model := (Model.ofTable "task" "task").withField { name := "priority", type := .integer }

/-- Tasks of priority zero and the others: together they are the tasks that have a priority. -/
theorem negation_parts_rows_priorities :
    let p : Place := ⟨priorityModel, "task"⟩
    let zero : Operand := .value (.int 0)
    p.model.field? "priority" = some { name := "priority", type := .integer } ∧ Operator.negate? .eq = some .ne ∧
      (Json.int 0).isScalar ∧
      ∃ c c',
        plainCondition ⟨"priority", .eq, zero⟩ p taskCompiler.context = .ok c ∧
        plainCondition ⟨"priority", .ne, zero⟩ p taskCompiler.context = .ok c' ∧
        ∀ row : TableRow Datum.engine p,
          Opposite Datum.engine row.columns c c' ↔ (row.columns (p.column "priority")).isSome := by
  intro p zero
  have hf : p.model.field? "priority" = some { name := "priority", type := .integer } := rfl
  have hs : (Json.int 0).isScalar := rfl
  have hagrees : AgreesOnNull .eq (.int 0) := ⟨rfl, fun _ => rfl⟩
  obtain ⟨c, c', hc, hc', hrows⟩ := negation_parts_rows hf (.inl rfl) rfl hs taskCompiler.context
  refine ⟨hf, rfl, hs, c, c', hc, hc', fun row => (hrows Datum.engine row).1.trans ?_⟩
  rw [and_iff_left hagrees]
  exact Option.isSome_iff_ne_none.symm

/-- A task without a priority is found neither as one of priority zero nor as one of another priority, but both as one
    with a zero in its priority and as one without. -/
theorem null_neither_zero_nor_other :
    let p : Place := ⟨priorityModel, "task"⟩
    let nulls : TableRow Datum.engine p := ⟨fun _ => none, fun _ _ _ _ => .inl rfl⟩
    let finds (op : Operator) (found : Bool) : Prop :=
      ∃ c, plainCondition ⟨"priority", op, .value (.int 0)⟩ p taskCompiler.context = .ok c ∧
        (c.truth Datum.engine nulls.columns).holds = found
    (finds .eq false ∧ finds .ne false) ∧ finds .like true ∧ finds .notLike true :=
  ⟨⟨⟨_, rfl, rfl⟩, _, rfl, rfl⟩, ⟨_, rfl, rfl⟩, _, rfl, rfl⟩

end RecordFilter.Compile
