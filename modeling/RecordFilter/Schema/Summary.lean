import RecordFilter.Schema.Registry
import RecordFilter.Text.Escaped

/-! Registries in one line. -/

namespace RecordFilter.Registry

/-- Some names in brackets. -/
def nameList (names : List String) : String :=
  "[" ++ String.intercalate ", " (names.map Text.quotedEscaped) ++ "]"

/-- The names of the models and search hooks of a registry. -/
def summary (r : Registry) : String :=
  "Registry \x7b models: " ++ nameList (r.models.keys) ++ ", hooks: "
    ++ nameList r.hooks.keys
    ++ " \x7d"

end RecordFilter.Registry
