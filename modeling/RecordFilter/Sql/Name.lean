/-! Quoted SQL names. -/

namespace RecordFilter.Sql

/-- The characters of a name inside its quotes: a quote is written twice. -/
def escapeName (name : List Char) : List Char :=
  name.flatMap fun c => if c = '"' then ['"', '"'] else [c]

/-- A name in double quotes. -/
def quote (name : String) : String := String.ofList ('"' :: escapeName name.toList ++ ['"'])

/-- A column of the table with an alias. -/
def qualified (tableAlias column : String) : String := quote tableAlias ++ "." ++ quote column

/-- A table under an alias, which is left out if it is the table's own name. -/
def aliased (table tableAlias : String) : String :=
  if table = tableAlias then quote table else quote table ++ " AS " ++ quote tableAlias

end RecordFilter.Sql
