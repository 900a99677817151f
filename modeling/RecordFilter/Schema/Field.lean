/-! Fields of models. -/

namespace RecordFilter

/-- What a field holds. -/
inductive FieldType
  | boolean
  | char
  | text
  | html
  | integer
  | float
  | monetary
  | selection
  | date
  | datetime
  | binary
  | many2one
  | one2many
  | many2many
deriving DecidableEq, Repr

namespace FieldType

/-- All types with their names. -/
def table : List (String × FieldType) :=
  [("boolean", boolean), ("char", char), ("text", text), ("html", html), ("integer", integer),
    ("float", float), ("monetary", monetary), ("selection", selection), ("date", date),
    ("datetime", datetime), ("binary", binary), ("many2one", many2one), ("one2many", one2many),
    ("many2many", many2many)]

/-- The name of a type. -/
def name : FieldType → String
  | boolean => "boolean"
  | char => "char"
  | text => "text"
  | html => "html"
  | integer => "integer"
  | float => "float"
  | monetary => "monetary"
  | selection => "selection"
  | date => "date"
  | datetime => "datetime"
  | binary => "binary"
  | many2one => "many2one"
  | one2many => "one2many"
  | many2many => "many2many"

/-- The type with a name. -/
def ofName? (s : String) : Option FieldType := (table.find? (·.1 = s)).map Prod.snd

theorem ofName?_name (t : FieldType) : ofName? t.name = some t := by cases t <;> decide

/-- Types that refer to records of another model. -/
def isRelational : FieldType → Bool
  | many2one | one2many | many2many => true
  | _ => false

/-- Types whose values can differ by language. -/
def isTranslatable : FieldType → Bool
  | char | text | html => true
  | _ => false

end FieldType

/-- The table behind a many2many field. -/
structure Relation where
  table : String
  /-- The column with the ids of the field's own model. -/
  column1 : String
  /-- The column with the ids of the other model. -/
  column2 : String
deriving DecidableEq, Repr

/-- A field of a model. -/
structure Field where
  name : String
  type : FieldType
  /-- The model that a relational field refers to. -/
  comodel : Option String := none
  /-- Whether the field has a column. -/
  store : Bool := true
  /-- Whether the value differs by language. -/
  translate : Bool := false
  relation : Option Relation := none
  /-- The many2one field on the other model that points back. -/
  inverseName : Option String := none
  /-- The search hook of a field without a column. -/
  search : Option String := none
  /-- Whether paths through the field use a join and no subquery. -/
  autoJoin : Bool := false
  /-- Whether the content lies in the table of attachments. -/
  attachment : Bool := false
deriving DecidableEq, Repr

namespace Field

/-- A binary field whose content lies in the table of attachments. -/
def binaryAttachment (name : String) : Field :=
  { name := name, type := .binary, attachment := true }

/-- A reference to one record of `comodel`. -/
def many2one (name comodel : String) : Field :=
  { name := name, type := .many2one, comodel := some comodel }

/-- The records of `comodel` whose field `inverse` refers to the record. -/
def one2many (name comodel inverse : String) : Field :=
  { name := name, type := .one2many, comodel := some comodel, inverseName := some inverse }

/-- The records of `comodel` that a relation table links to the record. -/
def many2many (name comodel : String) (relation : Relation) : Field :=
  { name := name, type := .many2many, comodel := some comodel, relation := some relation }

end Field

end RecordFilter
