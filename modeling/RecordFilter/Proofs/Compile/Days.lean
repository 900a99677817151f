import RecordFilter.Proofs.Calendar.Dates
import RecordFilter.Proofs.Compile.AlikeDomains
import RecordFilter.Proofs.Compile.Lines
import RecordFilter.Proofs.Compile.PlainLeaves

/-! Times compared with days. A leaf that compares a time with the text of a day becomes one with the first or the last
    second of the day, and so its condition is true of the times on the days that compare with the day. Texts that are no
    days are compared as they stand. -/

namespace RecordFilter

/-- What an operator of an order says. -/
def Operator.orders {α : Type} [LT α] [LE α] (op : Operator) (a b : α) : Prop :=
  match op with
  | .lt => a < b
  | .le => a ≤ b
  | .gt => b < a
  | .ge => b ≤ a
  | _ => False

/-- The database orders times by the seconds that have gone by, also where a time is given as a text. -/
def Sql.Engine.OrdersTimes {V : Type} (e : Engine V) (stamp : Timestamp → V) : Prop :=
  ∀ op : Operator, op.isOrdering → ∀ t u : Timestamp, u.day.Written →
    (e.test op (stamp t) (e.value (.text u.text)) = true ↔ op.orders t.instant u.instant)

namespace Timestamp
variable {op : Operator} {d : Date}

/-- The second of a day that stands for the whole day in a comparison. -/
def edge (op : Operator) (d : Date) (valid : d.isValid) : Timestamp := atEnd d valid (op = .gt ∨ op = .le)

/-- Compared with that second, times compare as their days do with the day. -/
theorem orders_edge (hop : op.isOrdering) (t : Timestamp) (hd : d.isValid) :
    op.orders t.instant (edge op d hd).instant ↔ op.orders t.day d := by
  cases op with
  | lt => exact instant_lt_first t hd
  | le => exact instant_le_last t hd
  | gt => exact Int.not_le.symm.trans ((not_congr (instant_le_last t hd)).trans Classical.not_not)
  | ge => exact Int.not_lt.symm.trans (not_congr (instant_lt_first t hd))
  | _ => cases hop

end Timestamp

namespace Compile
open Sql

variable {s : Setting} {build : QueryBuilder} {p : Place} {f : Field} {left text : String} {op : Operator} {d : Date}

/-! ### Conditions -/

/-- The comparison of a column with a text that is bound as it stands. -/
def comparesWith (column : Column) (op : Operator) (text : String) : Cond :=
  .group (.compare (.column column) op (.text text) false)

theorem plainCondition_ordering (hf : p.model.field? left = some f) (hop : op.isOrdering) (text : String) (ctx : Context) :
    plainCondition ⟨left, op, .value (.str text)⟩ p ctx = .ok (comparesWith (p.column left) op text) := by
  cases op <;> first
    | cases hop; done
    | simp [plainCondition, hf, literalLeaf, comparison, Operator.isPattern, Operator.isContains, Operator.isNegative,
        Param.ofJson?, comparesWith]

/-- Equality with a text also binds it as it stands. -/
theorem plainCondition_equality (hf : p.model.field? left = some f) (hop : op.isEquality) (text : String) (ctx : Context) :
    ∃ cond, plainCondition ⟨left, op, .value (.str text)⟩ p ctx = .ok cond ∧ cond.fragment.params = [.text text] := by
  have hbase : (comparesWith (p.column left) op text).fragment.params = [.text text] := rfl
  cases op with
  | eq =>
    refine ⟨_, ?_, hbase⟩
    simp [plainCondition, hf, literalLeaf, equality, comparison, Json.isUnset, Operator.isPattern, Operator.isContains,
      Operator.isNegative, Param.ofJson?, comparesWith]
  | ne =>
    refine ⟨if (Json.str text).isTruthy then .or (comparesWith (p.column left) .ne text) (.isNull (p.column left))
      else comparesWith (p.column left) .ne text, ?_, ?_⟩
    · simp [plainCondition, hf, literalLeaf, equality, comparison, Json.isUnset, Operator.isPattern, Operator.isContains,
        Operator.isNegative, Param.ofJson?, comparesWith]
      split <;> rfl
    · split <;> rfl
  | _ => cases hop

theorem holds_comparesWith {V : Type} {e : Engine V} {stamp : Timestamp → V} (he : e.OrdersTimes stamp)
    (hop : op.isOrdering) {row : Row V} {column : Column} {t u : Timestamp} (hu : u.day.Written)
    (hrow : row column = some (stamp t)) :
    ((comparesWith column op u.text).truth e row).holds = true ↔ op.orders t.instant u.instant := by
  refine Iff.trans ?_ (he op hop t u hu)
  simp [comparesWith, Cond.truth, Expr.value, Engine.plain, hrow, Engine.bound]

/-! ### Leaves -/

theorem widenDate?_text (hd : d.Written) (left : String) (op : Operator) :
    widenDate? ⟨left, op, .value (.str d.text)⟩ =
      some ⟨left, op, .value (.str (Timestamp.edge op d hd.valid).text)⟩ := by
  have hclock : (if op = .gt ∨ op = .le then "23:59:59" else "00:00:00") =
      Timestamp.clockText (Timestamp.edge op d hd.valid).second := by
    by_cases hop : op = .gt ∨ op = .le
    · simp only [Timestamp.edge, Timestamp.atEnd, hop, if_true, decide_true]
      decide
    · simp only [Timestamp.edge, Timestamp.atEnd, hop, if_false, decide_false]
      decide
  simp only [widenDate?, Date.isDateText_text hd, if_true, hclock]
  rfl

theorem widenDate?_of_not_date (h : Date.isDateText text = false) (left : String) (op : Operator) :
    widenDate? ⟨left, op, .value (.str text)⟩ = none := by
  simp [widenDate?, h]

section
variable (hr : s.registry.Valid) (hp : s.registry.Has p.model) (hf : p.model.field? left = some f) (hstore : f.store)
  (htype : f.type = .datetime)
include hr hp hf hstore htype

theorem classify_datetime (hop : op.isHierarchy = false) (right : Operand) :
    classify s.registry p.model ⟨left, op, right⟩ = .ok .datetime := by
  rw [classify_own (l := ⟨left, op, right⟩) hr hp hf hop]
  simp [classifyField, hstore, htype]

/-- A text that is no day settles with its condition. -/
theorem settles_text (hlevel : op.isHierarchy = false) (hset : op ≠ .eqIfSet) (hdate : Date.isDateText text = false)
    {cond : Cond} (hcond : plainCondition ⟨left, op, .value (.str text)⟩ p s.context = .ok cond) :
    Settles s build 1 ⟨left, op, .value (.str text)⟩ p cond := by
  refine settles_emit ?_
  rw [reduce_datetime hset (classify_datetime hr hp hf hstore htype hlevel _), widenDate?_of_not_date hdate]
  exact emitLeaf_yields hcond

/-- A day takes a step more, and has the condition of one of its seconds. -/
theorem settles_day (hop : op.isOrdering) (hd : d.Written) :
    Settles s build 2 ⟨left, op, .value (.str d.text)⟩ p
      (comparesWith (p.column left) op (Timestamp.edge op d hd.valid).text) := by
  have hlevel : op.isHierarchy = false := by cases op <;> first | rfl | cases hop
  have hset : op ≠ .eqIfSet := by
    rintro rfl
    cases hop
  have hwidened := widenDate?_text hd left op
  have hfinal : Settles s build 1 ⟨left, op, .value (.str (Timestamp.edge op d hd.valid).text)⟩ p
      (comparesWith (p.column left) op (Timestamp.edge op d hd.valid).text) := by
    refine settles_emit ?_
    rw [reduce_datetime hset (classify_datetime hr hp hf hstore htype hlevel _), widenDate?_widened hwidened]
    exact emitLeaf_yields (plainCondition_ordering hf hop _ _)
  refine hfinal.replaced ?_
  rw [reduce_datetime hset (classify_datetime hr hp hf hstore htype hlevel _), hwidened]
  exact .pure _

end

/-- Over an accepted registry, a leaf that compares a stored time of the model with the text of a day by an operator of an
    order compiles, and the condition is true of the times on the days that compare with the day. What a leaf is widened
    to is not widened again, and a text that is no day is bound as it stands. -/
theorem compile_widens (c : Compiler) (hr : c.registry.Valid) {model : String} {m : Model}
    (hm : c.registry.model model = .ok m) {left : String} {f : Field} (hf : m.field? left = some f) (hstore : f.store)
    (htype : f.type = .datetime) {fuel : Nat} (hfuel : 2 ≤ fuel) (q : Query) :
    (∀ (op : Operator) (d : Date), op.isOrdering → d.Written → ∃ cond,
      (∀ t, ∃ t', (c.compile fuel model [.leaf ⟨left, op, .value (.str d.text)⟩] q).run t =
        ((.ok (), q.addCondition cond), t')) ∧
      ∀ {V : Type} (e : Engine V) (stamp : Timestamp → V) (row : Row V) (time : Timestamp), e.OrdersTimes stamp →
        row ⟨q.tableAlias, left⟩ = some (stamp time) → ((cond.truth e row).holds = true ↔ op.orders time.day d)) ∧
    (∀ l w : Leaf, widenDate? l = some w → widenDate? w = none) ∧
    ∀ (op : Operator) (text : String), op.isOrdering ∨ op.isEquality → Date.isDateText text = false → ∃ cond,
      (∀ t, ∃ t', (c.compile fuel model [.leaf ⟨left, op, .value (.str text)⟩] q).run t =
        ((.ok (), q.addCondition cond), t')) ∧
      cond.fragment.params = [.text text] := by
  have hhas : c.registry.Has m := Registry.has_of_model hm
  have settled : ∀ {n : Nat} {l : Leaf} {cond : Cond}, n ≤ fuel →
      Settles (c.setting c.context) (c.queryIn fuel) n l ⟨m, q.tableAlias⟩ cond →
      ∀ t, ∃ t', (c.compile fuel model [.leaf l] q).run t = ((.ok (), q.addCondition cond), t') :=
    fun hn h t => h.compileWith hn hm rfl t
  refine ⟨fun op d hop hd => ?_, fun l w hw => widenDate?_widened hw, fun op text hop hdate => ?_⟩
  · refine ⟨_, settled hfuel (settles_day hr hhas hf hstore htype hop hd), fun e stamp row time he hrow => ?_⟩
    exact (holds_comparesWith he hop hd hrow).trans (Timestamp.orders_edge hop time hd.valid)
  · obtain ⟨cond, hcond, hparams⟩ : ∃ cond,
        plainCondition ⟨left, op, .value (.str text)⟩ ⟨m, q.tableAlias⟩ c.context = .ok cond ∧
          cond.fragment.params = [.text text] := by
      rcases hop with hop | hop
      · exact ⟨_, plainCondition_ordering hf hop text _, rfl⟩
      · exact plainCondition_equality hf hop text _
    have hlevel : op.isHierarchy = false := by
      cases op <;> first | rfl | simp [Operator.isOrdering, Operator.isEquality] at hop
    have hset : op ≠ .eqIfSet := by
      rintro rfl
      simp [Operator.isOrdering, Operator.isEquality] at hop
    exact ⟨cond, settled (by omega) (settles_text hr hhas hf hstore htype hlevel hset hdate hcond), hparams⟩

/-! ### Events by the day -/

/-- A database of times, in seconds. The text of a time is read. -/
def clockEngine : Engine Int where
  value
    | .text s => (Timestamp.instant? s).getD 0
    | .int n => n
    | .bool b => if b then 1 else 0
    | .null | .float _ => 0
  equal a b := a = b
  less a b := a < b
  atMost a b := a ≤ b
  like _ _ := false
  ilike _ _ := false
  asText a := a
  unaccent a := a
  inLanguage a _ := some a
  rows _ := []
  linked _ _ := []
  raw _ := .unknown
  equal_bool := by decide

theorem clockEngine_value (s : String) : clockEngine.value (.text s) = (Timestamp.instant? s).getD 0 := by
  rw [clockEngine]

theorem ordersTimes_clock : clockEngine.OrdersTimes Timestamp.instant := by
  intro op hop t u hu
  rw [clockEngine_value, Timestamp.instant?_text hu, Option.getD_some]
  generalize t.instant = a
  generalize u.instant = b
  cases op <;> first
    | cases hop; done
    | simp [Engine.test, clockEngine, Operator.orders]

theorem valid_events : eventCompiler.registry.Valid := ⟨.register (m := eventModel) .empty rfl, rfl⟩

/-- The last day of a leap February, written with ten characters. -/
def leapDay : Date := ⟨2024, 2, 29⟩

theorem written_leapDay : leapDay.Written := ⟨by decide, by decide, by decide⟩

/-- Events that start on the leap day or before: one that starts a second before midnight is among them, and one that
    starts at midnight is not. -/
theorem compile_widens_events :
    let c := eventCompiler
    let late : Timestamp := ⟨leapDay, 86399, by decide, by decide⟩
    let next : Timestamp := ⟨⟨2024, 3, 1⟩, 0, by decide, by decide⟩
    c.registry.Valid ∧ c.registry.model "event" = .ok eventModel ∧
      eventModel.field? "start" = some { name := "start", type := .datetime } ∧ leapDay.text = "2024-02-29" ∧
      ∃ cond,
        (∀ t, ∃ t', (c.compile 2 "event" [.leaf ⟨"start", .le, .value (.str "2024-02-29")⟩] (.ofTable "event")).run t =
          ((.ok (), (Query.ofTable "event").addCondition cond), t')) ∧
        (∀ row : Row Int, row ⟨"event", "start"⟩ = some late.instant → (cond.truth clockEngine row).holds = true) ∧
        ∀ row : Row Int, row ⟨"event", "start"⟩ = some next.instant → ¬(cond.truth clockEngine row).holds = true := by
  intro c late next
  have hm : c.registry.model "event" = .ok eventModel := rfl
  have hf : eventModel.field? "start" = some { name := "start", type := .datetime } := rfl
  have htext : leapDay.text = "2024-02-29" := by decide
  obtain ⟨hwidens, -, -⟩ := compile_widens c valid_events hm hf rfl rfl (Nat.le_refl 2) (.ofTable "event")
  obtain ⟨cond, hcompile, hrows⟩ := hwidens .le leapDay rfl written_leapDay
  rw [htext] at hcompile
  refine ⟨valid_events, hm, hf, htext, cond, hcompile, fun row hrow => ?_, fun row hrow => ?_⟩
  · refine (hrows clockEngine Timestamp.instant row late ordersTimes_clock hrow).mpr ?_
    show ¬leapDay < leapDay
    rw [Date.lt_iff]
    omega
  · refine fun hholds => (hrows clockEngine Timestamp.instant row next ordersTimes_clock hrow).mp hholds ?_
    exact .inr ⟨rfl, .inl (by decide)⟩

end Compile
end RecordFilter
