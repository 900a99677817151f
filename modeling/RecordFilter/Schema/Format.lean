import RecordFilter.Json.Record
import RecordFilter.Schema.Model

/-! Models as JSON. -/

namespace RecordFilter

open Json

/-! ### Reading -/

/-- Reads a type: its name, or an object with the name as its only key and `null` under it. -/
def FieldType.ofSource? : Source → Option FieldType
  | .str s => ofName? s
  | .obj [(some s, .null)] => ofName? s
  | _ => none

/-- The keys of a relation table, in the order of a list. -/
def Relation.keys : List String := ["table", "column1", "column2"]

/-- Reads a relation table. -/
def Relation.ofSource (s : Source) : Except Mismatch Relation := do
  let ms ← Members.ofSource keys s
  let table ← ms.get "table" "a string" Source.str? none
  let column1 ← ms.get "column1" "a string" Source.str? none
  let column2 ← ms.get "column2" "a string" Source.str? none
  return { table, column1, column2 }

/-- The keys of a field, in the order of a list. -/
def Field.keys : List String :=
  ["name", "type", "comodel", "store", "translate", "relation", "inverse_name", "search",
    "auto_join", "attachment"]

/-- Reads a field. Only the type is required. -/
def Field.ofSource (s : Source) : Except Mismatch Field := do
  let ms ← Members.ofSource keys s
  let text? := Source.optional? Source.str?
  let relation? := Source.optional? fun s => (Relation.ofSource s).toOption
  let name ← ms.get "name" "a string" Source.str? (some "")
  let type ← ms.get "type" "a field type" FieldType.ofSource? none
  let comodel ← ms.get "comodel" "a string or null" text? (some none)
  let store ← ms.get "store" "a boolean" Source.bool? (some true)
  let translate ← ms.get "translate" "a boolean" Source.bool? (some false)
  let relation ← ms.get "relation" "a relation table or null" relation? (some none)
  let inverseName ← ms.get "inverse_name" "a string or null" text? (some none)
  let search ← ms.get "search" "a string or null" text? (some none)
  let autoJoin ← ms.get "auto_join" "a boolean" Source.bool? (some false)
  let attachment ← ms.get "attachment" "a boolean" Source.bool? (some false)
  return { name, type, comodel, store, translate, relation, inverseName, search, autoJoin,
           attachment }

/-- The keys of a model, in the order of a list. -/
def Model.keys : List String :=
  ["name", "table", "fields", "inherits", "parent_name", "parent_store", "active_name", "rec_name"]

/-- Reads a string of a map. -/
def textEntry (s : Source) : Except Mismatch String :=
  match s.str? with
  | some t => .ok t
  | none => .error .notRecord

/-- Reads a model. Its name and table are required. -/
def Model.ofSource (s : Source) : Except Mismatch Model := do
  let ms ← Members.ofSource keys s
  let fields? s := (Source.map Field.ofSource s).toOption
  let inherits? s := (Source.map textEntry s).toOption
  let name ← ms.get "name" "a string" Source.str? none
  let table ← ms.get "table" "a string" Source.str? none
  let fields ← ms.get "fields" "an object of fields" fields? (some .empty)
  let inherits ← ms.get "inherits" "an object of strings" inherits? (some .empty)
  let parentName ← ms.get "parent_name" "a string" Source.str? (some "parent_id")
  let parentStore ← ms.get "parent_store" "a boolean" Source.bool? (some false)
  let activeName ←
    ms.get "active_name" "a string or null" (Source.optional? Source.str?) (some none)
  let recName ← ms.get "rec_name" "a string" Source.str? (some "name")
  return { name, table, fields, inherits, parentName, parentStore, activeName, recName }

/-- Reads a model from a value. -/
def Model.ofJson (j : Json) : Except Mismatch Model := Model.ofSource (Source.ofJson j)

/-! ### Writing -/

/-- The member of an optional value, left out if there is none. -/
def optionalMember {α : Type} (key : String) (write : α → Json) : Option α → List (String × Json)
  | some x => [(key, write x)]
  | none => []

/-- Writes a relation table. -/
def Relation.toJson (r : Relation) : Json :=
  .ofMembers [("table", .str r.table), ("column1", .str r.column1), ("column2", .str r.column2)]

/-- Writes a field. -/
def Field.toJson (f : Field) : Json :=
  .ofMembers
    ([("name", .str f.name), ("type", .str f.type.name), ("store", .bool f.store),
        ("translate", .bool f.translate), ("auto_join", .bool f.autoJoin),
        ("attachment", .bool f.attachment)]
      ++ optionalMember "comodel" .str f.comodel
      ++ optionalMember "relation" Relation.toJson f.relation
      ++ optionalMember "inverse_name" .str f.inverseName
      ++ optionalMember "search" .str f.search)

/-- Writes a model. -/
def Model.toJson (m : Model) : Json :=
  .ofMembers
    ([("name", .str m.name), ("table", .str m.table),
        ("fields", .ofMembers (m.fields.entries.map fun e => (e.1, e.2.toJson))),
        ("inherits", .ofMembers (m.inherits.entries.map fun e => (e.1, .str e.2))),
        ("parent_name", .str m.parentName), ("parent_store", .bool m.parentStore),
        ("rec_name", .str m.recName)]
      ++ optionalMember "active_name" .str m.activeName)

end RecordFilter
