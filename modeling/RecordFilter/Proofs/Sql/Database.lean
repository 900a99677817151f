import RecordFilter.Proofs.Sql.Truth

/-! Databases: tables of records beside the comparisons of values. A query finds the rows of its tables on
    which its condition is true, so what subqueries give and what relation tables link follows from the
    records. -/

namespace RecordFilter.Sql

variable {V : Type}

/-- The columns of a record, null being `none`. -/
abbrev Record (V : Type) := String → Option V

/-- The row of a record of the table with an alias. -/
def Record.under (r : Record V) (tableAlias : String) : Row V := fun c =>
  if c.tableAlias = tableAlias then r c.name else none

/-- The row with a record of one more table. -/
def Record.joined (r : Record V) (tableAlias : String) (row : Row V) : Row V := fun c =>
  if c.tableAlias = tableAlias then r c.name else row c

@[simp]
theorem Record.under_column (r : Record V) (tableAlias name : String) : r.under tableAlias ⟨tableAlias, name⟩ = r name :=
  if_pos rfl

namespace Engine
variable (e : Engine V)

/-- Whether two values are known to be equal. Null equals nothing. -/
def equals (a b : Option V) : Bool := (e.compare .eq a b).holds

theorem isSome_of_equals {a b : Option V} (h : e.equals a b = true) : b.isSome = true := by
  cases a <;> cases b <;> first | rfl | cases h

/-- A value is known to be among some others if it equals one of them. -/
theorem holds_member {a : Option V} {bs : List (Option V)} :
    (e.member a bs).holds = true ↔ ∃ b ∈ bs, e.equals a b = true := by
  induction bs with
  | nil => simp [member, Truth.holds]
  | cons b rest ih =>
    rw [member, Truth.holds_or, Bool.or_eq_true, ih]
    simp [equals]

end Engine

/-- Tables of records. How values compare, what SQL given as text finds and which rows a window leaves out is
    up to `base`. -/
structure Database (V : Type) where
  base : Engine V
  records : String → List (Record V)

namespace Database
variable (db : Database V)

/-- A row with each record that a join finds for it, or with nulls if there is none. -/
def join (j : Join) (row : Row V) : List (Row V) :=
  match (db.records j.targetTable).filter fun r =>
    db.base.equals (row ⟨j.sourceAlias, j.sourceColumn⟩) (r j.targetColumn) with
  | [] => [Record.joined (fun _ => none) j.tableAlias row]
  | found => found.map fun r => r.joined j.tableAlias row

/-- The rows of joined tables. -/
def tableRows (t : Tables) : List (Row V) :=
  t.joins.foldl (fun rows j => rows.flatMap (db.join j)) ((db.records t.table).map (·.under t.tableAlias))

/-- The other ids that a relation table links to an id. -/
def links (l : Link) (id : Option V) : List (Option V) :=
  ((db.records l.table).filter fun r => db.base.equals (r l.column1) id).map (· l.column2)

mutual

/-- The truth of a condition on a row, subqueries being read from the tables. -/
def truth : Cond → Row V → Truth
  | .literal b, _ => .ofBool b
  | .text f, _ => db.base.raw f
  | .isNull c, row => .ofBool (row c).isNone
  | .notNull c, row => .ofBool (row c).isSome
  | .isFalse c, row => db.base.compare .eq (row c) (db.base.bound (.bool false))
  | .notFalse c, row => db.base.compare .ne (row c) (db.base.bound (.bool false))
  | .compare left op right unaccent, row =>
    db.base.compare op (db.base.plain unaccent (left.value db.base row)) (db.base.plain unaccent (db.base.bound right))
  | .member left positive set, row =>
    let found := db.base.member (left.value db.base row) (members set)
    if positive then found else found.not
  | .linked positive link set, row =>
    let found := Truth.ofBool
      ((db.links link (row ⟨link.owner, "id"⟩)).any fun id => (db.base.member id (members set)).holds)
    if positive then found else found.not
  | .group c, row => truth c row
  | .and a b, row => (truth a row).and (truth b row)
  | .or a b, row => (truth a row).or (truth b row)
  | .not c, row => (truth c row).not
  | .conj a b, row => (truth a row).and (truth b row)

/-- The values of a set. -/
def members : Values → List (Option V)
  | .params ps => ps.map db.base.bound
  | .select s => selected s

/-- The column of a subquery. -/
def selected : Select → List (Option V)
  | .rows (.column c) tables condition window =>
    if window.limit = none ∧ window.offset = 0 then
      ((db.tableRows tables).filter fun row => (truth condition row).holds).map (· c)
    else db.base.rows (.rows (.column c) tables condition window)
  | .references table column => ((db.records table).map (· column)).filter (·.isSome)
  | .owners table column ids =>
    (((db.records table).filter fun r => (db.base.member (r "id") (members ids)).holds).map (· column)).filter (·.isSome)
  | .attached table model field =>
    (((db.records table).filter fun r => db.base.equals (r "res_model") (db.base.bound (.text model)) &&
      db.base.equals (r "res_field") (db.base.bound (.text field))).map (· "res_id")).filter (·.isSome)
  | s => db.base.rows s

end

/-- The comparisons of the database, with its tables behind subqueries and relation tables. -/
def engine : Engine V := { db.base with rows := db.selected, linked := db.links }

theorem members_engine (set : Values) : set.members db.engine = db.members set := by
  cases set with
  | params ps =>
    rw [members]
    rfl
  | select s =>
    rw [members]
    rfl

theorem member_engine (a : Option V) (bs : List (Option V)) : db.engine.member a bs = db.base.member a bs := by
  induction bs with
  | nil => rfl
  | cons b rest ih =>
    rw [Engine.member, Engine.member, ih]
    rfl

theorem truth_engine (row : Row V) : ∀ c : Cond, c.truth db.engine row = db.truth c row
  | .literal _ | .text _ | .isNull _ | .notNull _ | .isFalse _ | .notFalse _ | .compare .. => by
    rw [truth]
    rfl
  | .member left positive set => by
    rw [truth, Cond.truth, members_engine, member_engine]
    rfl
  | .linked positive link set => by
    rw [truth, Cond.truth, members_engine]
    simp only [member_engine]
    rfl
  | .group c => by
    rw [truth, Cond.truth, truth_engine row c]
  | .and a b => by
    rw [truth, Cond.truth, truth_engine row a, truth_engine row b]
  | .or a b => by
    rw [truth, Cond.truth, truth_engine row a, truth_engine row b]
  | .not c => by
    rw [truth, Cond.truth, truth_engine row c]
  | .conj a b => by
    rw [truth, Cond.truth, truth_engine row a, truth_engine row b]

/-! ### What subqueries give -/

/-- A query gives the column on the rows of its tables where its condition is true. -/
theorem mem_rows {c : Column} {tables : Tables} {cond : Cond} {x : Option V} :
    x ∈ db.engine.rows (.rows (.column c) tables cond {}) ↔
      ∃ row ∈ db.tableRows tables, (cond.truth db.engine row).holds = true ∧ row c = x := by
  show x ∈ db.selected _ ↔ _
  rw [selected, if_pos ⟨rfl, rfl⟩]
  simp only [List.mem_map, List.mem_filter, truth_engine, and_assoc]

/-- A query of one table with one condition gives the column on the records for which the condition is true. -/
theorem mem_rows_ofTable {table name : String} {c : Cond} {x : Option V} :
    x ∈ db.engine.rows (((Query.ofTable table).addCondition c).subselect (.column ⟨table, name⟩)) ↔
      ∃ b ∈ db.records table, (c.truth db.engine (b.under table)).holds = true ∧ b name = x := by
  show x ∈ db.engine.rows (.rows (.column ⟨table, name⟩) ⟨table, table, []⟩ c {}) ↔ _
  rw [mem_rows]
  show (∃ row ∈ (db.records table).map (·.under table), _) ↔ _
  constructor
  · rintro ⟨_, hrow, hc, rfl⟩
    obtain ⟨b, hb, rfl⟩ := List.mem_map.mp hrow
    exact ⟨b, hb, hc, (b.under_column table name).symm⟩
  · rintro ⟨b, hb, hc, rfl⟩
    exact ⟨_, List.mem_map_of_mem hb, hc, b.under_column table name⟩

theorem mem_owners {table column : String} {ids : Values} {x : Option V} :
    x ∈ db.engine.rows (.owners table column ids) ↔
      ∃ r ∈ db.records table, (db.engine.member (r "id") (ids.members db.engine)).holds = true ∧
        r column = x ∧ x.isSome := by
  show x ∈ db.selected _ ↔ _
  rw [selected, members_engine]
  simp only [List.mem_filter, List.mem_map, member_engine]
  constructor
  · rintro ⟨⟨r, ⟨hr, hm⟩, rfl⟩, hx⟩
    exact ⟨r, hr, hm, rfl, hx⟩
  · rintro ⟨r, hr, hm, rfl, hx⟩
    exact ⟨⟨r, ⟨hr, hm⟩, rfl⟩, hx⟩

theorem mem_references {table column : String} {x : Option V} :
    x ∈ db.engine.rows (.references table column) ↔ ∃ r ∈ db.records table, r column = x ∧ x.isSome := by
  show x ∈ db.selected _ ↔ _
  rw [selected]
  simp only [List.mem_filter, List.mem_map]
  constructor
  · rintro ⟨⟨r, hr, rfl⟩, hx⟩
    exact ⟨r, hr, rfl, hx⟩
  · rintro ⟨r, hr, rfl, hx⟩
    exact ⟨⟨r, hr, rfl⟩, hx⟩

theorem mem_attached {table model field : String} {x : Option V} :
    x ∈ db.engine.rows (.attached table model field) ↔
      ∃ r ∈ db.records table, db.base.equals (r "res_model") (db.base.bound (.text model)) = true ∧
        db.base.equals (r "res_field") (db.base.bound (.text field)) = true ∧ r "res_id" = x ∧ x.isSome := by
  show x ∈ db.selected _ ↔ _
  rw [selected]
  simp only [List.mem_filter, List.mem_map, Bool.and_eq_true]
  constructor
  · rintro ⟨⟨r, ⟨hr, hmodel, hfield⟩, rfl⟩, hx⟩
    exact ⟨r, hr, hmodel, hfield, rfl, hx⟩
  · rintro ⟨r, hr, hmodel, hfield, rfl, hx⟩
    exact ⟨⟨r, ⟨hr, hmodel, hfield⟩, rfl⟩, hx⟩

theorem mem_linked {l : Link} {id x : Option V} :
    x ∈ db.engine.linked l id ↔ ∃ r ∈ db.records l.table, db.base.equals (r l.column1) id = true ∧ r l.column2 = x := by
  show x ∈ db.links l id ↔ _
  simp only [links, List.mem_map, List.mem_filter, and_assoc]

theorem holds_member {x : Expr} {set : Values} {row : Row V} :
    ((Cond.member x true set).truth db.engine row).holds = true ↔
      ∃ v ∈ set.members db.engine, db.base.equals (x.value db.engine row) v = true := by
  rw [Cond.truth]
  exact Engine.holds_member _

theorem holds_linked {l : Link} {set : Values} {row : Row V} :
    ((Cond.linked true l set).truth db.engine row).holds = true ↔
      ∃ r ∈ db.records l.table, db.base.equals (r l.column1) (row ⟨l.owner, "id"⟩) = true ∧
        ∃ v ∈ set.members db.engine, db.base.equals (r l.column2) v = true := by
  rw [Cond.truth]
  simp only [if_true, Truth.holds_ofBool, List.any_eq_true, Engine.holds_member, mem_linked]
  constructor
  · rintro ⟨_, ⟨r, hr, hid, rfl⟩, v, hv, heq⟩
    exact ⟨r, hr, hid, v, hv, heq⟩
  · rintro ⟨r, hr, hid, v, hv, heq⟩
    exact ⟨_, ⟨r, hr, hid, rfl⟩, v, hv, heq⟩

end Database

/-! ### A small database -/

/-- Values that can be told apart. -/
inductive Datum
  | bool (b : Bool)
  | number (n : Int)
  | text (s : String)
deriving DecidableEq

/-- Values are compared as they are, and patterns are texts without wildcards. Nothing is ordered, translated or found
    by other SQL. -/
def Datum.engine : Engine Datum where
  value
    | .bool b => .bool b
    | .int n => .number n
    | .text s => .text s
    | .null | .float _ => .number 0
  equal a b := a = b
  less _ _ := false
  atMost a b := a = b
  like a b := a = b
  ilike a b := a = b
  asText a := a
  unaccent a := a
  inLanguage a _ := some a
  rows _ := []
  linked _ _ := []
  raw _ := .unknown
  equal_bool := by decide

/-- A record with some columns; the others are null. -/
def Record.ofList (columns : List (String × Datum)) : Record Datum := fun name => columns.lookup name

end RecordFilter.Sql
