import RecordFilter.Compile.Context
import RecordFilter.Compile.Run
import RecordFilter.Domain.Combine
import RecordFilter.Domain.Emptiness
import RecordFilter.Domain.Format
import RecordFilter.Sql.Query

/-! Queries inside a compilation: what reducing a leaf needs of the compiler that it is a part of. -/

namespace RecordFilter.Compile

/-- What a compilation works with. -/
structure Setting where
  registry : Registry
  backend : Backend
  context : Context

/-- Builds the query of a domain on the model with a name, in a context. -/
abbrev QueryBuilder := Context → String → Domain → Run Sql.Query

/-- The records of a domain: none for certain, or those of a query. -/
inductive Found
  | nothing
  | rows (q : Sql.Query)

/-- The operand of an `in` leaf for the found records. -/
def Found.operand : Found → Operand
  | nothing => .value (.arr [])
  | rows q => .subquery q.ids

/-- A query in the order of ids. -/
def inIdOrder (q : Sql.Query) : Sql.Query :=
  { q with window := { q.window with order := some (Sql.qualified q.tableAlias "id") } }

/-- Finds the records of a domain. One that is false by itself needs no query. -/
def findWith (build : QueryBuilder) (ctx : Context) (model : String) (d : Domain) : Run Found := do
  if ← Run.ofExcept d.isFalse then
    return .nothing
  else
    let q ← build ctx model d
    return .rows (inIdOrder q)

/-- Adds to a domain that the records are in use, unless the domain asks for that itself. -/
def withActive (r : Registry) (ctx : Context) (m : Model) (d : Domain) : Except Error Domain :=
  if ctx.activeTest then
    match r.activeField? m with
    | none => .ok d
    | some active =>
      if d.leaves.any (·.left = active) then .ok d
      else Domain.allOf [Domain.ofLeaf active .eq (.value (.bool true)), d]
  else .ok d

end RecordFilter.Compile
