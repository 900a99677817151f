import RecordFilter.Sql.Alias
import RecordFilter.Sql.Condition

/-! Queries under construction: a table, the joins that its conditions need, and the conditions. -/

namespace RecordFilter.Sql

/-- A query. All its conditions have to hold. -/
structure Query where
  table : String
  tableAlias : String
  joins : List Join := []
  conditions : List Cond := []
  window : Window := {}

namespace Query

/-- The query of all rows of a table, under its own name. -/
def ofTable (table : String) : Query := { table := table, tableAlias := table }

/-- The tables of the query. -/
def tables (q : Query) : Tables := ⟨q.table, q.tableAlias, q.joins⟩

/-- Whether a join introduces `tableAlias`. -/
def hasAlias (q : Query) (tableAlias : String) : Bool := q.joins.any (·.tableAlias == tableAlias)

/-- Adds a join unless one with its alias is there. -/
def addJoin (q : Query) (j : Join) : Query :=
  if q.hasAlias j.tableAlias then q else { q with joins := q.joins ++ [j] }

/-- The join from `source.column` to a table, reached through `link`. The same source and link give
    the same alias of the joined table. -/
def joinThrough (source column table targetColumn link : String) : Join :=
  { tableAlias := makeAlias source link, sourceAlias := source, sourceColumn := column
    targetTable := table, targetColumn := targetColumn }

/-- Adds a condition. -/
def addCondition (q : Query) (c : Cond) : Query := { q with conditions := q.conditions ++ [c] }

/-- All conditions as one; without any, `TRUE`. -/
def condition (q : Query) : Cond :=
  match q.conditions with
  | [] => .literal true
  | c :: rest => rest.foldl .conj c

/-- The id column of the query's own table. -/
def idColumn (q : Query) : Column := ⟨q.tableAlias, "id"⟩

/-- The query of some columns, or of the id if there are none. -/
def select (q : Query) (columns : List String) : Select :=
  let what :=
    if columns.isEmpty then .column q.idColumn else .text (String.intercalate ", " columns)
  .rows what q.tables q.condition q.window

/-- The subquery of one column. The order matters only where rows are left out. -/
def subselect (q : Query) (what : Selected) : Select :=
  .rows what q.tables q.condition
    (if q.window.limit.isSome || q.window.offset > 0 then q.window else {})

/-- The subquery of the ids. -/
def ids (q : Query) : Select := q.subselect (.column q.idColumn)

end Query

end RecordFilter.Sql
