import RecordFilter.Compile.Hierarchy
import RecordFilter.Compile.Names
import RecordFilter.Compile.Work

/-! Leaves on fields that refer to many records. They become conditions on the record's id, or on
the rows of a relation table. -/

namespace RecordFilter.Compile

open Sql

/-- The records on the right side of a leaf. -/
inductive Related
  | ids (ids : List Int)
  | rows (s : Select)

/-- The records in an operand that was found by a search. -/
def Related.ofFound : Found → Related
  | .nothing => .ids []
  | .rows q => .rows q.ids

/-- The condition that a record has, or has not, one of some records in a relation table. -/
def linkedTo (p : Place) (fieldName : String) (relation : Relation) (positive : Bool) :
    Related → Cond
  | .ids [] => .literal (!positive)
  | .ids ids => .linked positive link (.ofIds ids)
  | .rows s => .linked positive link (.select s)
where
  /-- The rows of the relation table that belong to the record. -/
  link : Link :=
    { table := relation.table, tableAlias := makeAlias p.tableAlias fieldName
      column1 := relation.column1, column2 := relation.column2, owner := p.tableAlias }

/-- The name of the field that points back from the lines of a one2many field. -/
def inverseName (m : Model) (f : Field) : Except Error String :=
  match f.inverseName with
  | some name => .ok name
  | none => .error (.schema (.noInverseName m.name f.name))

/-- The field that points back from the lines of a one2many field. -/
def inverseField (m : Model) (f : Field) (comodel : Model) : Except Error Field :=
  match inverseName m f with
  | .error e => .error e
  | .ok name =>
    match comodel.field? name with
    | some inverse => .ok { inverse with name := name }
    | none => .error (.schema (.noInverse m.name f.name name comodel.name))

/-- The ids of the lines of a domain. -/
def lineIds (s : Setting) (comodel : Model) (d : Domain) : Run (List Int) :=
  Run.search s.backend comodel d { activeTest := s.context.activeTest }

/-- The items of a list that are not `null` or `false`. -/
def setItems (items : List Json) : List Json := items.filter (!·.isUnset)

/-- The records that the right side of a leaf names. Names are searched with the positive
    operator. -/
def relatedOf (s : Setting) (leaf : Leaf) (comodel : Model) : Run Related :=
  match leaf.right with
  | .subquery sub => return .rows sub
  | .value v =>
    match names? v, v with
    | some _, _ => do
      let op := if leaf.op.isNegative then leaf.op.negate?.getD leaf.op else leaf.op
      return .ids (← Run.nameSearch s.backend comodel v op { activeTest := s.context.activeTest })
    | none, .int n =>
      match (Json.int n).int64? with
      | some id => return .ids [id]
      | none => Run.fail (.invalidLeaf leaf.text .idsNotIntegers)
    | none, .float _ => Run.fail (.invalidLeaf leaf.text .idsNotIntegers)
    | none, .arr items =>
      match integers? (setItems items) with
      | some ids => return .ids ids
      | none => Run.fail (.invalidLeaf leaf.text .idsNotIntegers)
    | none, _ => Run.fail (.invalidLeaf leaf.text .neitherIdsNorNames)

/-! ### One2many fields -/

/-- A hierarchy leaf on a one2many field. -/
def one2manyHierarchy (s : Setting) (build : QueryBuilder) (dir : Direction) (leaf : Leaf)
    (p : Place) (f inverse : Field) (comodel : Model) : Run Step := do
  let ids ← rootIds s leaf comodel
  if comodel.name = p.model.name then
    Step.domain (← hierarchyDomain s build dir ids p.model (some f.name) .ids) p
  else if inverse.store then
    Step.domain (← hierarchyDomain s build dir ids comodel none (.via f.name)) p
  else
    let d ← hierarchyDomain s build dir ids comodel none .ids
    let lines ← lineIds s comodel d
    Step.domain (Domain.ofLeaf f.name .within (.value (.ofIds lines))) p

/-- The owners of any lines, as an operand. -/
def allOwners (s : Setting) (inverse : Field) (comodel : Model) : Run Operand := do
  if inverse.store then
    return .subquery (.references comodel.table inverse.name)
  else
    let lines ← lineIds s comodel (Domain.ofLeaf inverse.name .ne (.value (.bool false)))
    let owners ← Run.references s.backend comodel lines inverse.name
    return .value (.ofIds owners)

/-- A leaf on a one2many field. -/
def reduceOne2many (s : Setting) (build : QueryBuilder) (leaf : Leaf) (p : Place)
    (f : Field) (comodel : Model) : Run Step := do
  let inverse ← Run.ofExcept (inverseField p.model f comodel)
  let negative := leaf.op.isNegative
  match Direction.ofOperator? leaf.op with
  | some dir => one2manyHierarchy s build dir leaf p f inverse comodel
  | none =>
    if leaf.right.isUnset then
      let owners ← allOwners s inverse comodel
      return Step.leaf ⟨"id", if negative then .within else .notIn, owners⟩ p
    else
      let op := if negative then Operator.notIn else .within
      match ← relatedOf s leaf comodel, inverse.store with
      | .ids [], _ => return .emit (.literal negative)
      | .ids ids, true =>
        let owners := Select.owners comodel.table inverse.name (.ofIds ids)
        return Step.leaf ⟨"id", op, .subquery owners⟩ p
      | .rows sub, true =>
        let owners := Select.owners comodel.table inverse.name (.select sub)
        return Step.leaf ⟨"id", op, .subquery owners⟩ p
      | .ids ids, false =>
        let owners ← Run.references s.backend comodel ids inverse.name
        return Step.leaf ⟨"id", op, .value (.ofIds owners)⟩ p
      | .rows _, false =>
        Run.fail (.unsupported (.unstoredInverse p.model.name f.name inverse.name))

/-! ### Many2many fields -/

/-- A hierarchy leaf on a many2many field. -/
def many2manyHierarchy (s : Setting) (build : QueryBuilder) (dir : Direction) (leaf : Leaf)
    (p : Place) (f : Field) (relation : Relation) (comodel : Model) : Run Step := do
  let ids ← rootIds s leaf comodel
  let d ← hierarchyDomain s build dir ids comodel none .ids
  let found ← findWith build s.context comodel.name d
  if comodel.name = p.model.name then
    return Step.leaf ⟨"id", .within, found.operand⟩ p
  else
    return .emit (linkedTo p f.name relation true (.ofFound found))

/-- A leaf on a many2many field. -/
def reduceMany2many (s : Setting) (build : QueryBuilder) (leaf : Leaf) (p : Place)
    (f : Field) (comodel : Model) : Run Step := do
  match f.relation with
  | none => Run.fail (.schema (.noRelation p.model.name f.name))
  | some relation =>
    let negative := leaf.op.isNegative
    match Direction.ofOperator? leaf.op with
    | some dir => many2manyHierarchy s build dir leaf p f relation comodel
    | none =>
      if leaf.right.isUnset then
        let linked := Select.references relation.table relation.column1
        return Step.leaf ⟨"id", if negative then .within else .notIn, .subquery linked⟩ p
      else
        let related ← relatedOf s leaf comodel
        return .emit (linkedTo p f.name relation (!negative) related)

end RecordFilter.Compile
