import RecordFilter.Proofs.Sql.Database

/-! Rows of joined tables. Each row holds a record of the query's own table and, under the alias of each join, a
    record that the join finds for it, or nothing but nulls where the join finds none. -/

namespace RecordFilter.Sql

variable {V : Type}

/-- What a row holds under an alias. -/
def Row.record (row : Row V) (tableAlias : String) : Record V := fun name => row ⟨tableAlias, name⟩

/-- Nothing but nulls. -/
def Record.blank : Record V := fun _ => none

@[simp]
theorem Record.record_under (r : Record V) (tableAlias : String) : (r.under tableAlias).record tableAlias = r := by
  funext name
  exact r.under_column tableAlias name

@[simp]
theorem Record.record_joined (r : Record V) (tableAlias : String) (row : Row V) :
    (r.joined tableAlias row).record tableAlias = r := by
  funext name
  exact if_pos rfl

theorem Record.record_joined_of_ne (r : Record V) {tableAlias other : String} (h : other ≠ tableAlias) (row : Row V) :
    (r.joined tableAlias row).record other = row.record other := by
  funext name
  exact if_neg h

/-! ### Sets of values -/

theorem Truth.eq_of_holds {t t' : Truth} (hholds : t.holds = t'.holds) (hunknown : t = .unknown ↔ t' = .unknown) :
    t = t' := by
  cases t <;> cases t' <;> simp_all [Truth.holds]

namespace Engine
variable (e : Engine V)

theorem isSome_left_of_equals {a b : Option V} (h : e.equals a b = true) : a.isSome = true := by
  cases a with
  | none =>
    rw [equals, compare_none] at h
    cases h
  | some a => rfl

/-- Whether a value is among some others depends on nothing but which values these are. -/
theorem member_congr {bs bs' : List (Option V)} (h : ∀ x, x ∈ bs ↔ x ∈ bs') (a : Option V) :
    e.member a bs = e.member a bs' := by
  have hnil : bs = [] ↔ bs' = [] := by
    simp only [List.eq_nil_iff_forall_not_mem, h]
  cases a with
  | none =>
    by_cases hbs : bs = []
    · rw [hbs, hnil.mp hbs]
    · rw [e.member_none hbs, e.member_none (mt hnil.mpr hbs)]
  | some a =>
    have hholds : (e.member (some a) bs).holds = (e.member (some a) bs').holds := by
      rw [Bool.eq_iff_iff, e.holds_member, e.holds_member]
      simp only [h]
    refine Truth.eq_of_holds hholds ?_
    rw [e.member_eq_unknown, e.member_eq_unknown, h, hholds]

end Engine

/-! ### Joins -/

namespace Database
variable (db : Database V)

/-- The records of a table are told apart by a column. -/
def TellsApart (table column : String) : Prop :=
  ∀ ⦃b⦄, b ∈ db.records table → ∀ ⦃b'⦄, b' ∈ db.records table → ∀ v,
    db.base.equals v (b column) = true → db.base.equals v (b' column) = true → b = b'

/-- Under the alias of a join the row holds a record that the join finds for it, or it holds nothing where the join
    finds no record. -/
inductive Fits (j : Join) (row : Row V) : Prop
  | found : row.record j.tableAlias ∈ db.records j.targetTable →
      db.base.equals (row ⟨j.sourceAlias, j.sourceColumn⟩) (row ⟨j.tableAlias, j.targetColumn⟩) = true → Fits j row
  | missed : row.record j.tableAlias = Record.blank →
      (∀ b ∈ db.records j.targetTable, db.base.equals (row ⟨j.sourceAlias, j.sourceColumn⟩) (b j.targetColumn) = false) →
      Fits j row

variable {db} {j : Join} {row row' : Row V}

/-- A row without values fits every join. -/
theorem fits_blank : db.Fits j fun _ => none := by
  refine .missed rfl fun b _ => ?_
  rw [Engine.equals, Engine.compare_none]
  rfl

theorem Fits.congr (h : db.Fits j row) (htarget : row'.record j.tableAlias = row.record j.tableAlias)
    (hsource : row'.record j.sourceAlias = row.record j.sourceAlias) : db.Fits j row' := by
  have hcolumn : row' ⟨j.sourceAlias, j.sourceColumn⟩ = row ⟨j.sourceAlias, j.sourceColumn⟩ := congrFun hsource _
  have hid : row' ⟨j.tableAlias, j.targetColumn⟩ = row ⟨j.tableAlias, j.targetColumn⟩ := congrFun htarget _
  cases h with
  | found hmem heq => exact .found (htarget ▸ hmem) (by rw [hcolumn, hid]; exact heq)
  | missed hblank hnone => exact .missed (htarget.trans hblank) fun b hb => by rw [hcolumn]; exact hnone b hb

/-- Two rows with the same reference hold the same under the alias of the table that it leads to. -/
theorem Fits.same {j' : Join} (h : db.Fits j row) (h' : db.Fits j' row')
    (hkeys : db.TellsApart j.targetTable j.targetColumn) (htable : j'.targetTable = j.targetTable)
    (hcolumn : j'.targetColumn = j.targetColumn)
    (hsource : row' ⟨j'.sourceAlias, j'.sourceColumn⟩ = row ⟨j.sourceAlias, j.sourceColumn⟩) :
    row'.record j'.tableAlias = row.record j.tableAlias := by
  cases h with
  | found hmem heq =>
    cases h' with
    | found hmem' heq' =>
      rw [htable] at hmem'
      rw [hsource, hcolumn] at heq'
      exact hkeys hmem' hmem _ heq' heq
    | missed hblank' hnone' =>
      have hmissed := hnone' _ (htable ▸ hmem)
      rw [hsource, hcolumn] at hmissed
      exact absurd (hmissed.symm.trans heq) Bool.false_ne_true
  | missed hblank hnone =>
    cases h' with
    | found hmem' heq' =>
      rw [htable] at hmem'
      rw [hsource, hcolumn] at heq'
      exact absurd ((hnone _ hmem').symm.trans heq') Bool.false_ne_true
    | missed hblank' _ => exact hblank'.trans hblank.symm

theorem mem_join : row' ∈ db.join j row ↔
    (∃ b ∈ db.records j.targetTable, db.base.equals (row ⟨j.sourceAlias, j.sourceColumn⟩) (b j.targetColumn) = true ∧
      row' = b.joined j.tableAlias row) ∨
    ((∀ b ∈ db.records j.targetTable,
      db.base.equals (row ⟨j.sourceAlias, j.sourceColumn⟩) (b j.targetColumn) = false) ∧
      row' = Record.blank.joined j.tableAlias row) := by
  unfold Database.join
  split
  · rename_i hnone
    have hmissed := List.filter_eq_nil_iff.mp hnone
    rw [List.mem_singleton]
    constructor
    · rintro rfl
      exact .inr ⟨fun b hb => Bool.eq_false_iff.mpr (hmissed b hb), rfl⟩
    · rintro (⟨b, hb, heq, -⟩ | ⟨-, rfl⟩)
      · exact absurd heq (hmissed b hb)
      · rfl
  · rename_i found hsome
    simp only [List.mem_map, List.mem_filter]
    constructor
    · rintro ⟨b, ⟨hb, heq⟩, rfl⟩
      exact .inl ⟨b, hb, heq, rfl⟩
    · rintro (⟨b, hb, heq, rfl⟩ | ⟨hmissed, -⟩)
      · exact ⟨b, ⟨hb, heq⟩, rfl⟩
      · refine absurd (List.filter_eq_nil_iff.mpr fun b hb => ?_) hsome
        rw [hmissed b hb]
        exact Bool.false_ne_true

theorem join_ne_nil (j : Join) (row : Row V) : ∃ row', row' ∈ db.join j row := by
  by_cases hfound : ∃ b ∈ db.records j.targetTable,
      db.base.equals (row ⟨j.sourceAlias, j.sourceColumn⟩) (b j.targetColumn) = true
  · obtain ⟨b, hb, heq⟩ := hfound
    exact ⟨_, mem_join.mpr (.inl ⟨b, hb, heq, rfl⟩)⟩
  · exact ⟨_, mem_join.mpr (.inr ⟨fun b hb => Bool.eq_false_iff.mpr fun heq => hfound ⟨b, hb, heq⟩, rfl⟩)⟩

/-- A join changes nothing but what stands under its alias, and what stands there fits it. -/
theorem fits_of_mem_join (h : row' ∈ db.join j row) (hsource : j.sourceAlias ≠ j.tableAlias) :
    db.Fits j row' ∧ ∀ other ≠ j.tableAlias, row'.record other = row.record other := by
  rcases mem_join.mp h with ⟨b, hb, heq, rfl⟩ | ⟨hnone, rfl⟩
  · have hothers : ∀ other ≠ j.tableAlias, (b.joined j.tableAlias row).record other = row.record other :=
      fun other hother => b.record_joined_of_ne hother row
    have hcolumn : (b.joined j.tableAlias row) ⟨j.sourceAlias, j.sourceColumn⟩ = row ⟨j.sourceAlias, j.sourceColumn⟩ :=
      congrFun (hothers _ hsource) _
    have hid : (b.joined j.tableAlias row) ⟨j.tableAlias, j.targetColumn⟩ = b j.targetColumn :=
      congrFun (b.record_joined j.tableAlias row) _
    refine ⟨.found ?_ ?_, hothers⟩
    · rw [b.record_joined]
      exact hb
    · rw [hcolumn, hid]
      exact heq
  · have hothers : ∀ other ≠ j.tableAlias,
        ((Record.blank : Record V).joined j.tableAlias row).record other = row.record other :=
      fun other hother => Record.record_joined_of_ne _ hother row
    refine ⟨.missed (Record.record_joined _ _ _) fun b hb => ?_, hothers⟩
    rw [show (Record.blank.joined j.tableAlias row : Row V) ⟨j.sourceAlias, j.sourceColumn⟩ =
      row ⟨j.sourceAlias, j.sourceColumn⟩ from congrFun (hothers _ hsource) _]
    exact hnone b hb

end Database

/-! ### Tables that are laid out -/

/-- Each join leads on from the table with the first alias or from an earlier join, and has an alias of its own. -/
inductive Laid (first : String) : List Join → Prop
  | nil : Laid first []
  | snoc {joins : List Join} {j : Join} : Laid first joins → j.tableAlias ≠ first →
      (∀ i ∈ joins, i.tableAlias ≠ j.tableAlias) →
      (j.sourceAlias = first ∨ ∃ i ∈ joins, i.tableAlias = j.sourceAlias) → Laid first (joins ++ [j])

namespace Laid
variable {first : String} {joins : List Join} {db : Database V} {table : String}

theorem source (h : Laid first joins) :
    ∀ j ∈ joins, j.sourceAlias = first ∨ ∃ i ∈ joins, i.tableAlias = j.sourceAlias := by
  induction h with
  | nil => exact nofun
  | @snoc earlier j _ _ _ hsource ih =>
    intro i hi
    have later : (i.sourceAlias = first ∨ ∃ i' ∈ earlier, i'.tableAlias = i.sourceAlias) →
        i.sourceAlias = first ∨ ∃ i' ∈ earlier ++ [j], i'.tableAlias = i.sourceAlias :=
      Or.imp_right fun ⟨i', hi', heq⟩ => ⟨i', List.mem_append_left _ hi', heq⟩
    rcases List.mem_append.mp hi with hi | hi
    · exact later (ih i hi)
    · exact later (List.mem_singleton.mp hi ▸ hsource)

theorem tableRows_snoc (j : Join) :
    db.tableRows ⟨table, first, joins ++ [j]⟩ = (db.tableRows ⟨table, first, joins⟩).flatMap (db.join j) := by
  unfold Database.tableRows
  rw [List.foldl_append]
  rfl

/-- A row holds a record of the first table, and it fits every join. -/
theorem fits (h : Laid first joins) {row : Row V} (hrow : row ∈ db.tableRows ⟨table, first, joins⟩) :
    row.record first ∈ db.records table ∧ ∀ j ∈ joins, db.Fits j row := by
  induction h generalizing row with
  | nil =>
    obtain ⟨r, hr, rfl⟩ := List.mem_map.mp hrow
    rw [r.record_under]
    exact ⟨hr, nofun⟩
  | @snoc joins j hlaid hfirst hfresh hsource ih =>
    rw [tableRows_snoc] at hrow
    obtain ⟨row₀, hrow₀, hjoin⟩ := List.mem_flatMap.mp hrow
    obtain ⟨hrecord, hfits⟩ := ih hrow₀
    -- No earlier alias is that of the new join, so what stands under the earlier ones stays.
    have hother : ∀ {a}, (a = first ∨ ∃ i ∈ joins, i.tableAlias = a) → a ≠ j.tableAlias := by
      rintro a (rfl | ⟨i, hi, rfl⟩)
      · exact hfirst.symm
      · exact hfresh i hi
    obtain ⟨hnew, hkept⟩ := Database.fits_of_mem_join hjoin (hother hsource)
    refine ⟨?_, fun i hi => ?_⟩
    · rw [hkept first (hother (.inl rfl))]
      exact hrecord
    · rcases List.mem_append.mp hi with hi | hi
      · exact (hfits i hi).congr (hkept _ (hfresh i hi)) (hkept _ (hother (hlaid.source i hi)))
      · exact List.mem_singleton.mp hi ▸ hnew

/-- Every record of the first table has a row. -/
theorem exists_row (h : Laid first joins) {a : Record V} (ha : a ∈ db.records table) :
    ∃ row ∈ db.tableRows ⟨table, first, joins⟩, row.record first = a := by
  induction h with
  | nil => exact ⟨_, List.mem_map_of_mem ha, a.record_under first⟩
  | @snoc joins j _ hfirst hfresh hsource ih =>
    obtain ⟨row, hrow, hrecord⟩ := ih
    obtain ⟨row', hrow'⟩ : ∃ row', row' ∈ db.join j row := Database.join_ne_nil j row
    have hother : j.sourceAlias ≠ j.tableAlias := by
      rcases hsource with heq | ⟨i, hi, heq⟩
      · exact heq ▸ hfirst.symm
      · exact heq ▸ hfresh i hi
    refine ⟨row', ?_, ?_⟩
    · rw [tableRows_snoc]
      exact List.mem_flatMap.mpr ⟨row, hrow, hrow'⟩
    · rw [(Database.fits_of_mem_join hrow' hother).2 first hfirst.symm]
      exact hrecord

/-- One more join. -/
theorem addJoin {q : Query} (h : Laid q.tableAlias q.joins) {j : Join} (hfirst : j.tableAlias ≠ q.tableAlias)
    (hsource : j.sourceAlias = q.tableAlias ∨ q.hasAlias j.sourceAlias) : Laid q.tableAlias (q.addJoin j).joins := by
  unfold Query.addJoin
  split
  · exact h
  · rename_i hfresh
    have hsome : ∀ {a}, q.hasAlias a ↔ ∃ i ∈ q.joins, i.tableAlias = a := by
      intro a
      simp [Query.hasAlias]
    exact h.snoc hfirst (fun i hi heq => hfresh (hsome.mpr ⟨i, hi, heq⟩)) (hsource.imp_right hsome.mp)

end Laid

/-! ### What queries select -/

namespace Database
variable (db : Database V)

/-- The record is on a row of the query's tables on which its condition is true. -/
def Selects (q : Query) (a : Record V) : Prop :=
  ∃ row ∈ db.tableRows q.tables, (q.condition.truth db.engine row).holds = true ∧ row.record q.tableAlias = a

/-- A query of one table with one condition selects the records for which the condition is true. -/
theorem selects_ofTable {table : String} {c : Cond} {a : Record V} :
    db.Selects ((Query.ofTable table).addCondition c) a ↔
      a ∈ db.records table ∧ (c.truth db.engine (a.under table)).holds = true := by
  show (∃ row ∈ (db.records table).map (·.under table), (c.truth db.engine row).holds = true ∧ row.record table = a) ↔ _
  constructor
  · rintro ⟨_, hrow, hc, rfl⟩
    obtain ⟨b, hb, rfl⟩ := List.mem_map.mp hrow
    rw [b.record_under]
    exact ⟨hb, hc⟩
  · rintro ⟨ha, hc⟩
    exact ⟨_, List.mem_map_of_mem ha, hc, a.record_under table⟩

/-- A subquery that leaves no rows out gives a column of the selected records. -/
theorem mem_rows_subselect {q : Query} (hwindow : q.window.limit = none ∧ q.window.offset = 0) {name : String}
    {x : Option V} :
    x ∈ db.engine.rows (q.subselect (.column ⟨q.tableAlias, name⟩)) ↔ ∃ a, db.Selects q a ∧ a name = x := by
  have hplain : q.subselect (.column ⟨q.tableAlias, name⟩) =
      .rows (.column ⟨q.tableAlias, name⟩) q.tables q.condition {} := by
    simp [Query.subselect, hwindow]
  rw [hplain, mem_rows]
  constructor
  · rintro ⟨row, hrow, hholds, rfl⟩
    exact ⟨_, ⟨row, hrow, hholds, rfl⟩, rfl⟩
  · rintro ⟨_, ⟨row, hrow, hholds, rfl⟩, rfl⟩
    exact ⟨row, hrow, hholds, rfl⟩

end Database
end RecordFilter.Sql
