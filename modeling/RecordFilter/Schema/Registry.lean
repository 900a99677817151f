import RecordFilter.Domain.Basic
import RecordFilter.Error
import RecordFilter.Schema.Model
import RecordFilter.Text.Word

/-! The registry of models and search hooks, and how names resolve in it. -/

namespace RecordFilter

/-- A search hook replaces a leaf on a field without a column by a domain. -/
abbrev Hook := Model → Operator → Operand → Except Error Domain

/-- Models and search hooks by name. -/
structure Registry where
  models : Keyed Model := .empty
  hooks : Keyed Hook := .empty

/-- Where a field name leads: to a field of the model itself, or to a parent through a link. -/
inductive FieldLookup
  | local (f : Field)
  | inherited (parent : Model) (link : String)

namespace Registry

/-- The model with a name, if there is one. -/
def model? (r : Registry) (name : String) : Option Model := r.models.find? name

/-- The model with a name. -/
def model (r : Registry) (name : String) : Except Error Model :=
  match r.model? name with
  | some m => .ok m
  | none => .error (.unknownModel name)

/-- The search hook with a name. -/
def hook? (r : Registry) (name : String) : Option Hook := r.hooks.find? name

/-- Registers a search hook under a name. -/
def registerHook (r : Registry) (name : String) (hook : Hook) : Registry :=
  { r with hooks := r.hooks.insert name hook }

/-- Registers a model after completing it: how the call ends, and the registry after it. What refers to other models
    is left to `validate`. -/
def attempt (r : Registry) (m : Model) : Except Error Unit × Registry :=
  if !Text.isModelName m.name then (.error (.schema (.badModelName m.name)), r)
  else if !Text.isIdentifier m.table then (.error (.schema (.badTable m.name m.table)), r)
  else if r.models.contains m.name then (.error (.schema (.duplicate m.name)), r)
  else
    let m := m.complete
    match m.fields.keys.find? (!Text.isIdentifier ·) with
    | some field => (.error (.schema (.badFieldName m.name field)), r)
    | none => (.ok (), { r with models := r.models.insert m.name m })

/-- The registry with one more model. -/
def register (r : Registry) (m : Model) : Except Error Registry :=
  match r.attempt m with
  | (.ok (), r) => .ok r
  | (.error e, _) => .error e

/-! ### Resolving names -/

/-- The model that a relational field refers to. -/
def comodel (r : Registry) (f : Field) : Except Error Model :=
  match f.comodel with
  | some name => r.model name
  | none => .error (.schema (.noComodel f.name))

/-- The first parent that has a field or inherits it, searched through at most `depth` levels. -/
def inherited? (r : Registry) (name : String) : Nat → Model → Option FieldLookup
  | 0, _ => none
  | depth + 1, m =>
    m.inherits.entries.findSome? fun (parentName, link) =>
      match r.model? parentName with
      | none => none
      | some parent =>
        if (parent.field? name).isSome || (inherited? r name depth parent).isSome then
          some (.inherited parent link)
        else none

/-- Where a field name leads on a model. No chain of parents without repetition is longer than the
    number of models. -/
def resolve? (r : Registry) (m : Model) (name : String) : Option FieldLookup :=
  match m.field? name with
  | some f => some (.local f)
  | none => r.inherited? name (r.models.size + 1) m

/-- The field that says whether a record is in use: the model's own, or else that of the first
    parent with one, at most `depth` levels up. -/
def activeWithin? (r : Registry) : Nat → Model → Option String
  | 0, m => m.activeField?
  | depth + 1, m =>
    match m.activeField? with
    | some name => some name
    | none =>
      m.inherits.entries.findSome? fun (parentName, _) =>
        match r.model? parentName with
        | none => none
        | some parent => activeWithin? r depth parent

/-- The field that says whether a record of the model is in use. -/
def activeField? (r : Registry) (m : Model) : Option String :=
  r.activeWithin? (r.models.size + 1) m

/-! ### Checking references -/

/-- The first error of `check` on the items of a list. -/
def checkAll {α : Type} (check : α → Except Error Unit) : List α → Except Error Unit
  | [] => .ok ()
  | x :: rest =>
    match check x with
    | .error e => .error e
    | .ok () => checkAll check rest

/-- Checks that the back reference of a one2many field exists. -/
def checkInverse (f : Field) (comodel : String) (target : Model) : Except FieldFault Unit :=
  if f.type = .one2many then
    match f.inverseName with
    | none => .error .noInverseName
    | some inverse =>
      if (target.field? inverse).isSome then .ok () else .error (.noInverse comodel inverse)
  else .ok ()

/-- Checks that a many2many field with a column names its relation table. -/
def checkRelation (f : Field) : Except FieldFault Unit :=
  if f.type = .many2many && f.store then
    match f.relation with
    | none => .error .noRelation
    | some rel =>
      match [rel.table, rel.column1, rel.column2].find? (!Text.isIdentifier ·) with
      | some name => .error (.badIdentifier name)
      | none => .ok ()
  else .ok ()

/-- Checks that a relational field leads to a model, and how it does. -/
def checkReference (r : Registry) (f : Field) : Except FieldFault Unit :=
  if f.type.isRelational then
    match f.comodel with
    | none => .error .noComodel
    | some comodel =>
      match r.model? comodel with
      | none => .error (.unknownComodel comodel)
      | some target =>
        match checkInverse f comodel target with
        | .error e => .error e
        | .ok () => checkRelation f
  else .ok ()

/-- Checks one field. -/
def checkField (r : Registry) (m : Model) (f : Field) : Except Error Unit :=
  match r.checkReference f with
  | .error e => .error (.schema (.badField m.name f.name e))
  | .ok () =>
    if f.translate && !f.type.isTranslatable then
      .error (.schema (.badField m.name f.name .notTranslatable))
    else .ok ()

/-- Checks one delegation: the parent exists and the link is a many2one field. -/
def checkDelegation (r : Registry) (m : Model) (parent link : String) : Except Error Unit :=
  match r.model parent with
  | .error e => .error e
  | .ok _ =>
    match m.field? link with
    | some f =>
      if f.type = .many2one then .ok () else .error (.schema (.badDelegation m.name parent link))
    | none => .error (.schema (.badDelegation m.name parent link))

/-- Checks one model: its fields, its delegations and its parent field. -/
def checkModel (r : Registry) (m : Model) : Except Error Unit :=
  match checkAll (r.checkField m) m.fields.values with
  | .error e => .error e
  | .ok () =>
    match checkAll (fun e => r.checkDelegation m e.1 e.2) m.inherits.entries with
    | .error e => .error e
    | .ok () =>
      if m.parentStore && (m.field? m.parentName).isNone then
        .error (.schema (.noParentField m.name m.parentName))
      else .ok ()

/-- Checks that what the models refer to exists. -/
def validate (r : Registry) : Except Error Unit := checkAll r.checkModel r.models.values

end Registry

end RecordFilter
