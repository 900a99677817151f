import RecordFilter.Sql.Param

/-! SQL text with `%s` placeholders, and one bound value for each. -/

namespace RecordFilter.Sql

/-- A piece of SQL: the values stand in the order of their placeholders. -/
structure Fragment where
  sql : String
  params : List Param := []

namespace Fragment

instance : Inhabited Fragment := ⟨⟨"", []⟩⟩

/-- Puts two fragments one after the other. -/
protected def append (a b : Fragment) : Fragment := ⟨a.sql ++ b.sql, a.params ++ b.params⟩

instance : Append Fragment := ⟨Fragment.append⟩

/-- Text without values. -/
def text (sql : String) : Fragment := ⟨sql, []⟩

/-- A truth value. -/
def literal (value : Bool) : Fragment := text (if value then "TRUE" else "FALSE")

/-- One placeholder and its value. -/
def param (p : Param) : Fragment := ⟨"%s", [p]⟩

/-- Two fragments with a keyword between them, in parentheses. -/
def join (keyword : String) (a b : Fragment) : Fragment :=
  text "(" ++ a ++ text (" " ++ keyword ++ " ") ++ b ++ text ")"

/-- The conjunction of two conditions, in parentheses. -/
def and (a b : Fragment) : Fragment := join "AND" a b

/-- The disjunction of two conditions, in parentheses. -/
def or (a b : Fragment) : Fragment := join "OR" a b

/-- The negation of a condition, in parentheses. -/
def negate (a : Fragment) : Fragment := text "(NOT (" ++ a ++ text "))"

/-- The number of `%s` in a text. -/
def countMarks : List Char → Nat
  | [] => 0
  | '%' :: 's' :: rest => countMarks rest + 1
  | _ :: rest => countMarks rest

/-- The number of placeholders. -/
def placeholderCount (f : Fragment) : Nat := countMarks f.sql.toList

end Fragment

/-- As many placeholders as `count`, between commas. -/
def placeholders (count : Nat) : String := String.intercalate "," (List.replicate count "%s")

end RecordFilter.Sql
