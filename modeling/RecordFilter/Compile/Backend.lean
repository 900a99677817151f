import RecordFilter.Schema.Registry

/-! What the compiler asks the database for. A database is a function of the calls made so far, so
that its answers may change from call to call. -/

namespace RecordFilter

/-- How records are searched. -/
structure SearchOptions where
  /-- Whether access rules are left out. -/
  privileged : Bool := false
  /-- Whether records out of use are hidden. -/
  activeTest : Bool := true
  limit : Option Nat := none
deriving DecidableEq, Repr

/-- A call made while compiling: of the database, or of a search hook. -/
inductive Call
  /-- The ids of the records of a domain. -/
  | search (model : String) (domain : Domain) (options : SearchOptions)
  /-- The ids of the records with a name, where the database looks names up by itself. -/
  | names (model : String) (name : Json) (op : Operator) (options : SearchOptions)
  /-- The values of a reference on some records, each once. -/
  | references (model : String) (ids : List Int) (field : String)
  /-- The parent paths of those among some records that exist. -/
  | parentPaths (model : String) (ids : List Int)
  | hook (hook model : String) (op : Operator) (operand : Operand)

/-- A database. Each answer may depend on the calls made before. -/
structure Backend where
  search : List Call → Model → Domain → SearchOptions → Except Error (List Int)
  references : List Call → Model → List Int → String → Except Error (List Int)
  parentPaths : List Call → Model → List Int → Except Error (List (Int × String))
  /-- How the database looks names up by itself. One that does not is searched by the name field. -/
  nameSearch : Option (List Call → Model → Json → Operator → SearchOptions → Except Error (List Int)) :=
    none

namespace Backend

/-- The domain of the records whose name field compares with a name. -/
def nameDomain (m : Model) (name : Json) (op : Operator) : Domain :=
  Domain.ofLeaf m.recName op (.value name)

/-- The call that looks a name up. -/
def nameCall (b : Backend) (m : Model) (name : Json) (op : Operator) (options : SearchOptions) : Call :=
  match b.nameSearch with
  | some _ => .names m.name name op options
  | none => .search m.name (nameDomain m name op) options

/-- The records that a name leads to. -/
def findByName (b : Backend) (history : List Call) (m : Model) (name : Json) (op : Operator)
    (options : SearchOptions) : Except Error (List Int) :=
  match b.nameSearch with
  | some find => find history m name op options
  | none => b.search history m (nameDomain m name op) options

section
variable {b : Backend} {m : Model} {name : Json} {op : Operator} {options : SearchOptions}

theorem nameCall_of_none (h : b.nameSearch = none) :
    b.nameCall m name op options = .search m.name (nameDomain m name op) options := by
  rw [nameCall, h]

theorem findByName_of_none (h : b.nameSearch = none) (history : List Call) :
    b.findByName history m name op options = b.search history m (nameDomain m name op) options := by
  rw [findByName, h]

end

/-- No database: every request fails. -/
def offline : Backend where
  search _ m _ _ := .error (.backend (.offline .search m.name))
  references _ m _ _ := .error (.backend (.offline .read m.name))
  parentPaths _ m _ := .error (.backend (.offline .parentPaths m.name))

end Backend

end RecordFilter
