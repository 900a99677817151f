import RecordFilter.Sql.Query

/-! What conditions say about a row, in SQL's logic of three values: a comparison with null is unknown, and
    a row is found only where the condition is true. The values that are not null and how they compare are
    left to the database, and so are the rows of subqueries. -/

namespace RecordFilter.Sql

/-- A truth value of SQL. -/
inductive Truth
  | true
  | false
  | unknown
deriving DecidableEq, Repr

namespace Truth

def ofBool (b : Bool) : Truth := if b then true else false

/-- Whether a row with this truth value is found. -/
def holds (t : Truth) : Bool := t = true

def not : Truth → Truth
  | true => false
  | false => true
  | unknown => unknown

def and : Truth → Truth → Truth
  | false, _ | _, false => false
  | true, b => b
  | unknown, _ => unknown

def or : Truth → Truth → Truth
  | true, _ | _, true => true
  | false, b => b
  | unknown, _ => unknown

@[simp]
theorem holds_ofBool (b : Bool) : (ofBool b).holds = b := by cases b <;> rfl

@[simp]
theorem holds_and (a b : Truth) : (a.and b).holds = (a.holds && b.holds) := by cases a <;> cases b <;> rfl

@[simp]
theorem holds_or (a b : Truth) : (a.or b).holds = (a.holds || b.holds) := by cases a <;> cases b <;> rfl

@[simp]
theorem holds_unknown : unknown.holds = Bool.false := by decide

/-- Where the truth is known, it or its negation holds. -/
theorem holds_not {t : Truth} (h : t ≠ unknown) : t.not.holds = !t.holds := by
  cases t
  · rfl
  · rfl
  · exact absurd rfl h

/-- Only where the truth is known, the negation holds just where it does not hold itself. -/
theorem holds_not_iff {t : Truth} : t.not.holds = (!t.holds) ↔ t ≠ unknown := by
  cases t
  · exact iff_of_true rfl nofun
  · exact iff_of_true rfl nofun
  · exact iff_of_false nofun fun h => h rfl

theorem or_ne_unknown {a b : Truth} (ha : a ≠ unknown) (hb : b ≠ unknown) : a.or b ≠ unknown := by
  cases a <;> cases b <;> simp_all [or]

theorem not_ne_unknown {t : Truth} (h : t ≠ unknown) : t.not ≠ unknown := by
  cases t
  · nofun
  · nofun
  · exact absurd rfl h

theorem ofBool_ne_unknown (b : Bool) : ofBool b ≠ unknown := by cases b <;> nofun

end Truth

/-- The values of a database other than null and their comparisons. -/
structure Engine (V : Type) where
  /-- The value of a parameter other than null. -/
  value : Param → V
  equal : V → V → Bool
  less : V → V → Bool
  atMost : V → V → Bool
  like : V → V → Bool
  ilike : V → V → Bool
  /-- The text of a value. -/
  asText : V → V
  unaccent : V → V
  /-- The value of a translated column in a language. -/
  inLanguage : V → String → Option V
  /-- The column of a subquery. -/
  rows : Select → List (Option V)
  /-- The other ids that a relation table links to an id. -/
  linked : Link → Option V → List (Option V)
  /-- The truth of SQL that is given as text. -/
  raw : Fragment → Truth
  equal_bool : ∀ a b, equal (value (.bool a)) (value (.bool b)) = (a == b)

/-- The values of the columns, null being `none`. -/
abbrev Row (V : Type) := Column → Option V

namespace Engine
variable {V : Type} (e : Engine V)

/-- The value of a parameter. -/
def bound : Param → Option V
  | .null => none
  | p => some (e.value p)

/-- Compares two values as the keyword of the operator does. -/
def test (op : Operator) (a b : V) : Bool :=
  match op with
  | .eq => e.equal a b
  | .ne => !e.equal a b
  | .lt => e.less a b
  | .le => e.atMost a b
  | .gt => e.less b a
  | .ge => e.atMost b a
  | .like | .eqLike => e.like a b
  | .notLike => !e.like a b
  | .ilike | .eqIlike => e.ilike a b
  | .notIlike => !e.ilike a b
  -- Operators without a comparison in SQL.
  | .eqIfSet | .within | .notIn | .childOf | .parentOf => false

/-- Compares two columns or parameters. -/
def compare (op : Operator) : Option V → Option V → Truth
  | some a, some b => .ofBool (e.test op a b)
  | _, _ => .unknown

/-- Whether a value is among some others. -/
def member (a : Option V) : List (Option V) → Truth
  | [] => .false
  | b :: rest => (e.compare .eq a b).or (member a rest)

/-- Leaves out accents when `on`. -/
def plain (on : Bool) (a : Option V) : Option V := if on then a.map e.unaccent else a

@[simp]
theorem compare_none (op : Operator) (b : Option V) : e.compare op none b = .unknown := by cases b <;> rfl

@[simp]
theorem compare_some (op : Operator) (a b : V) : e.compare op (some a) (some b) = .ofBool (e.test op a b) := rfl

/-- Null is not known to be among any values. -/
theorem member_none {bs : List (Option V)} (h : bs ≠ []) : e.member none bs = .unknown := by
  induction bs with
  | nil => exact absurd rfl h
  | cons b rest ih =>
    rw [member, compare_none]
    cases rest with
    | nil => rfl
    | cons c rest =>
      rw [ih (by simp)]
      rfl

/-- Among values that are not null, it is known whether a value is there. -/
theorem member_some (a : V) {bs : List (Option V)} (h : ∀ b ∈ bs, b ≠ none) : e.member (some a) bs ≠ .unknown := by
  induction bs with
  | nil => exact nofun
  | cons b rest ih =>
    obtain ⟨b, rfl⟩ := Option.ne_none_iff_exists'.mp (h b List.mem_cons_self)
    refine Truth.or_ne_unknown ?_ (ih fun c hc => h c (List.mem_cons_of_mem _ hc))
    rw [compare_some]
    cases e.test .eq a b <;> exact nofun

/-- It is not known whether a value is among others where null is and the value is not found. -/
theorem member_eq_unknown (a : V) {bs : List (Option V)} :
    e.member (some a) bs = .unknown ↔ none ∈ bs ∧ (e.member (some a) bs).holds = false := by
  induction bs with
  | nil => simp [member]
  | cons b rest ih =>
    rw [member, Truth.holds_or]
    cases b with
    | none =>
      have hcompare : e.compare .eq (some a) none = .unknown := rfl
      rw [hcompare]
      cases e.member (some a) rest <;> simp [Truth.or, Truth.holds]
    | some b =>
      rw [compare_some]
      cases e.test .eq a b
      · have hrest : (Truth.ofBool false).or (e.member (some a) rest) = e.member (some a) rest := by
          cases e.member (some a) rest <;> rfl
        rw [hrest, ih]
        simp
      · simp [Truth.or, Truth.ofBool, Truth.holds]

end Engine

section
variable {V : Type} (e : Engine V) (row : Row V)

def Expr.value : Expr → Option V
  | .column c => row c
  | .cast c => (row c).map e.asText
  | .translated c lang => (row c).bind fun v => (e.inLanguage v lang).or (e.inLanguage v sourceLang)

def Values.members : Values → List (Option V)
  | .params ps => ps.map e.bound
  | .select s => e.rows s

/-- The truth of a condition on a row. -/
def Cond.truth : Cond → Truth
  | .literal b => .ofBool b
  | .text f => e.raw f
  | .isNull c => .ofBool (row c).isNone
  | .notNull c => .ofBool (row c).isSome
  | .isFalse c => e.compare .eq (row c) (e.bound (.bool false))
  | .notFalse c => e.compare .ne (row c) (e.bound (.bool false))
  | .compare left op right unaccent =>
    e.compare op (e.plain unaccent (left.value e row)) (e.plain unaccent (e.bound right))
  | .member left positive set =>
    let found := e.member (left.value e row) (set.members e)
    if positive then found else found.not
  | .linked positive link set =>
    let found := Truth.ofBool
      ((e.linked link (row ⟨link.owner, "id"⟩)).any fun id => (e.member id (set.members e)).holds)
    if positive then found else found.not
  | .group c => c.truth
  | .and a b => a.truth.and b.truth
  | .or a b => a.truth.or b.truth
  | .not c => c.truth.not
  | .conj a b => a.truth.and b.truth

/-- A further condition of a query restricts its rows. -/
theorem holds_condition_addCondition (q : Query) (c : Cond) :
    ((q.addCondition c).condition.truth e row).holds =
      ((q.condition.truth e row).holds && (c.truth e row).holds) := by
  unfold Query.condition Query.addCondition
  cases q.conditions with
  | nil => rfl
  | cons first rest =>
    simp only [List.cons_append, List.foldl_append, List.foldl_cons, List.foldl_nil]
    exact Truth.holds_and _ _

end
end RecordFilter.Sql
