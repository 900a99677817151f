import RecordFilter.Keyed
import RecordFilter.Schema.Field

/-! Models: a table, its fields, and what the compiler has to know of them. -/

namespace RecordFilter

/-- A model. Fields are kept under their names. -/
structure Model where
  name : String
  table : String
  fields : Keyed Field := .empty
  /-- Parent models by name, each with the many2one field that holds the parent record. -/
  inherits : Keyed String := .empty
  /-- The many2one field that hierarchies follow. -/
  parentName : String := "parent_id"
  /-- Whether `parent_path` holds the ids from the root down to the record. -/
  parentStore : Bool := false
  /-- The field that says whether a record is in use, if it is not `active`. -/
  activeName : Option String := none
  /-- The field that name searches look at. -/
  recName : String := "name"
deriving DecidableEq, Repr

namespace Model

/-- Gives every field the name it is kept under and adds the fields that every model has. -/
def complete (m : Model) : Model :=
  let fields := m.fields.mapValues fun name f => { f with name := name }
  let fields := fields.insertNew "id" { name := "id", type := .integer }
  let fields :=
    if m.parentStore then
      fields.insertNew "parent_path" { name := "parent_path", type := .char }
    else fields
  { m with fields := fields }

/-- A model with the field `id` only. -/
def ofTable (name table : String) : Model := complete { name := name, table := table }

/-- Adds a field. -/
def withField (m : Model) (f : Field) : Model := { m with fields := m.fields.insert f.name f }

/-- Delegates to `parent` through the many2one field `link`. -/
def inheriting (m : Model) (parent link : String) : Model :=
  { m with inherits := m.inherits.insert parent link }

/-- Keeps the paths of ancestors in `parent_path`. -/
def withParentStore (m : Model) : Model := complete { m with parentStore := true }

/-- The model's own field with a name. -/
def field? (m : Model) (name : String) : Option Field := m.fields.find? name

/-- The model's own field that says whether a record is in use. -/
def activeField? (m : Model) : Option String :=
  match m.activeName with
  | some name => some name
  | none =>
    match m.field? "active" with
    | some f => if f.type = .boolean ∧ f.store then some f.name else none
    | none => none

end Model

end RecordFilter
