import RecordFilter.Operator
import RecordFilter.Sql.Fragment
import RecordFilter.Sql.Name

/-! Conditions on the rows of a query and the subqueries in them, as data; `fragment` is the SQL. -/

namespace RecordFilter.Sql

/-- A column of the table with an alias. -/
structure Column where
  tableAlias : String
  name : String
deriving DecidableEq, Repr

/-- The SQL of a column. -/
def Column.text (c : Column) : String := qualified c.tableAlias c.name

/-- What stands on the left of a comparison. -/
inductive Expr
  | column (c : Column)
  /-- The text of a column. -/
  | cast (c : Column)
  /-- The value of a translated column in a language, or else in `en_US`. -/
  | translated (c : Column) (lang : String)
deriving DecidableEq, Repr

/-- The language in which every translated column has a value. -/
def sourceLang : String := "en_US"

/-- The SQL of an expression. -/
def Expr.fragment : Expr → Fragment
  | .column c => .text c.text
  | .cast c => .text (c.text ++ "::text")
  | .translated c lang =>
    if lang = sourceLang then .text (c.text ++ "->>'en_US'")
    else ⟨"COALESCE(" ++ c.text ++ "->>%s, " ++ c.text ++ "->>'en_US')", [.text lang]⟩

/-- Wraps a fragment in `unaccent` when `on`. -/
def unaccented (on : Bool) (f : Fragment) : Fragment :=
  if on then .text "unaccent(" ++ f ++ .text ")" else f

/-- A table joined to a query: `tableAlias.targetColumn` equals `sourceAlias.sourceColumn`. -/
structure Join where
  tableAlias : String
  sourceAlias : String
  sourceColumn : String
  targetTable : String
  targetColumn : String
deriving DecidableEq, Repr

/-- The SQL of a join. -/
def Join.text (j : Join) : String :=
  "LEFT JOIN " ++ aliased j.targetTable j.tableAlias ++ " ON ("
    ++ qualified j.sourceAlias j.sourceColumn ++ " = " ++ qualified j.tableAlias j.targetColumn
    ++ ")"

/-- The tables of a query. -/
structure Tables where
  table : String
  tableAlias : String
  joins : List Join
deriving DecidableEq, Repr

/-- The SQL of the tables of a query. -/
def Tables.text (t : Tables) : String :=
  String.intercalate " " (aliased t.table t.tableAlias :: t.joins.map Join.text)

/-- What a query selects. -/
inductive Selected
  | column (c : Column)
  | text (sql : String)
deriving DecidableEq, Repr

/-- The SQL of what a query selects. -/
def Selected.sql : Selected → String
  | .column c => c.text
  | .text sql => sql

/-- Which of the found rows a query gives, and in which order. -/
structure Window where
  order : Option String := none
  limit : Option Nat := none
  offset : Nat := 0
deriving DecidableEq, Repr

/-- The SQL after the condition of a query. -/
def Window.text (w : Window) : String :=
  (match w.order with | some order => " ORDER BY " ++ order | none => "")
    ++ (match w.limit with | some limit => " LIMIT " ++ Nat.repr limit | none => "")
    ++ (if w.offset > 0 then " OFFSET " ++ Nat.repr w.offset else "")

/-- The rows of a relation table that belong to the record of a query: `column1` of the relation
    table, under `tableAlias`, equals the id of the table with `owner`. -/
structure Link where
  table : String
  tableAlias : String
  column1 : String
  column2 : String
  owner : String
deriving DecidableEq, Repr

mutual

/-- A condition. Comparisons stand without parentheses until they are put into a `group`. -/
inductive Cond
  | literal (value : Bool)
  | text (f : Fragment)
  | isNull (c : Column)
  | notNull (c : Column)
  | isFalse (c : Column)
  | notFalse (c : Column)
  | compare (left : Expr) (op : Operator) (right : Param) (unaccent : Bool)
  | member (left : Expr) (positive : Bool) (set : Values)
  /-- Whether the record has a row in a relation table whose other column is in the set. -/
  | linked (positive : Bool) (link : Link) (set : Values)
  | group (c : Cond)
  | and (a b : Cond)
  | or (a b : Cond)
  | not (c : Cond)
  /-- A conjunction without parentheses. -/
  | conj (a b : Cond)

/-- A set of values: a list of bound ones, or the rows of a subquery. -/
inductive Values
  | params (ps : List Param)
  | select (s : Select)

/-- A subquery with one column. -/
inductive Select
  | text (f : Fragment)
  | rows (what : Selected) (tables : Tables) (condition : Cond) (window : Window)
  /-- The values of a column that are not null. -/
  | references (table column : String)
  /-- The values of a column, null left out, on the records with some ids. -/
  | owners (table column : String) (ids : Values)
  /-- The records of a model with an attachment for a field. -/
  | attached (table model field : String)

end

mutual

/-- The SQL of a condition. -/
def Cond.fragment : Cond → Fragment
  | .literal value => .literal value
  | .text f => f
  | .isNull c => .text (c.text ++ " IS NULL")
  | .notNull c => .text (c.text ++ " IS NOT NULL")
  | .isFalse c => .text (c.text ++ " = FALSE")
  | .notFalse c => .text (c.text ++ " != FALSE")
  | .compare left op right unaccent =>
    unaccented unaccent left.fragment ++ .text (" " ++ op.keyword ++ " ")
      ++ unaccented unaccent (.param right)
  | .member left positive set =>
    left.fragment ++ .text (if positive then " IN (" else " NOT IN (") ++ set.fragment ++ .text ")"
  | .linked positive link set =>
    .text ((if positive then "" else "NOT ") ++ "EXISTS (SELECT 1 FROM " ++ quote link.table
        ++ " AS " ++ quote link.tableAlias ++ " WHERE " ++ qualified link.tableAlias link.column1
        ++ " = " ++ qualified link.owner "id" ++ " AND " ++ qualified link.tableAlias link.column2
        ++ " IN (")
      ++ set.fragment ++ .text "))"
  | .group c => .text "(" ++ c.fragment ++ .text ")"
  | .and a b => a.fragment.and b.fragment
  | .or a b => a.fragment.or b.fragment
  | .not c => c.fragment.negate
  | .conj a b => a.fragment ++ .text " AND " ++ b.fragment

/-- The SQL of a set of values, without parentheses. -/
def Values.fragment : Values → Fragment
  | .params ps => ⟨placeholders ps.length, ps⟩
  | .select s => s.fragment

/-- The SQL of a subquery. -/
def Select.fragment : Select → Fragment
  | .text f => f
  | .rows what tables condition window =>
    .text ("SELECT " ++ what.sql ++ " FROM " ++ tables.text ++ " WHERE ") ++ condition.fragment
      ++ .text window.text
  | .references table column =>
    .text ("SELECT " ++ quote column ++ " FROM " ++ quote table ++ " WHERE " ++ quote column
      ++ " IS NOT NULL")
  | .owners table column ids =>
    .text ("SELECT " ++ quote column ++ " FROM " ++ quote table ++ " WHERE " ++ quote "id"
        ++ " IN (")
      ++ ids.fragment ++ .text (") AND " ++ quote column ++ " IS NOT NULL")
  | .attached table model field =>
    ⟨"SELECT res_id FROM " ++ quote table
      ++ " WHERE res_model = %s AND res_field = %s AND res_id IS NOT NULL",
      [.text model, .text field]⟩

end

/-- The set of some record ids. -/
def Values.ofIds (ids : List Int) : Values := .params (ids.map .int)

end RecordFilter.Sql
