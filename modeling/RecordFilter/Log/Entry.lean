import RecordFilter.Json.Text
import RecordFilter.Log.Severity

/-! Logged events, one line of JSON each. -/

namespace RecordFilter.Log

/-- What is worth logging. -/
inductive Event
  | schemasLoaded
  | domainCompiled
  /-- A leaf on a field without a column and without a search hook counts as true. -/
  | computedFieldNotSearchable
  /-- A comparison of an attachment with a value counts as true. -/
  | binarySearchIgnored
  /-- A boolean as the right side of `in` or `not in`, where a list belongs. -/
  | legacyBooleanIn
  /-- Zero or `false` where record ids were expected. -/
  | unexpectedFalsyId
  | hierarchyExpanded
  /-- A field names a search hook that is not registered. -/
  | searchHookMissing
  | requestFailed
deriving DecidableEq, Repr

namespace Event

/-- The name of an event. -/
def name : Event → String
  | schemasLoaded => "SCHEMAS_LOADED"
  | domainCompiled => "DOMAIN_COMPILED"
  | computedFieldNotSearchable => "COMPUTED_FIELD_NOT_SEARCHABLE"
  | binarySearchIgnored => "BINARY_SEARCH_IGNORED"
  | legacyBooleanIn => "LEGACY_BOOLEAN_IN"
  | unexpectedFalsyId => "UNEXPECTED_FALSY_ID"
  | hierarchyExpanded => "HIERARCHY_EXPANDED"
  | searchHookMissing => "SEARCH_HOOK_MISSING"
  | requestFailed => "REQUEST_FAILED"

/-- All events. -/
def all : List Event :=
  [schemasLoaded, domainCompiled, computedFieldNotSearchable, binarySearchIgnored, legacyBooleanIn,
    unexpectedFalsyId, hierarchyExpanded, searchHookMissing, requestFailed]

/-- The event with a name. -/
def ofName? (s : String) : Option Event := all.find? (·.name = s)

/-- The severity at which an event is logged. -/
def severity : Event → Severity
  | domainCompiled | hierarchyExpanded => .trace
  | schemasLoaded => .info
  | requestFailed => .error
  | _ => .warn

end Event

/-- A logged event with its fields. -/
structure Entry where
  severity : Severity
  event : String
  fields : List (String × String)
deriving DecidableEq, Repr

namespace Entry

/-- An event at its own severity. -/
def ofEvent (e : Event) (fields : List (String × String)) : Entry := ⟨e.severity, e.name, fields⟩

/-- The fields in the order of their keys. -/
def sorted (e : Entry) : List (String × String) := e.fields.mergeSort fun a b => a.1 ≤ b.1

/-- A field after the first two members of the line. -/
def fieldText (f : String × String) : String := "," ++ Json.quoted f.1 ++ ":" ++ Json.quoted f.2

/-- The line of an entry: the event, the severity, then the fields by key. -/
def line (e : Entry) : String :=
  "\x7b\"event\":" ++ Json.quoted e.event ++ ",\"severity\":\"" ++ e.severity.name ++ "\""
    ++ String.join (e.sorted.map fieldText) ++ "\x7d\n"

end Entry

end RecordFilter.Log
