import RecordFilter.Calendar
import RecordFilter.Compile.Classify
import RecordFilter.Compile.Leaf
import RecordFilter.Compile.Related

/-! The reduction of leaves: each becomes its condition, or tokens closer to plain columns. -/

namespace RecordFilter.Compile

open Sql

/-- The condition of a leaf on a plain column. -/
def emitLeaf (s : Setting) (leaf : Leaf) (p : Place) : Run Step := do
  let c ← Run.ofExcept (plainCondition leaf p s.context)
  match leafNotice? leaf with
  | some (event, fields) => Run.log event fields
  | none => pure ()
  return .emit c

/-- A date compared with a time stands for the whole day. -/
def widenDate? (leaf : Leaf) : Option Leaf :=
  match leaf.right with
  | .value (.str date) =>
    if Date.isDateText date then
      let time := if leaf.op = .gt ∨ leaf.op = .le then "23:59:59" else "00:00:00"
      some { leaf with right := .value (.str (date ++ " " ++ time)) }
    else none
  | _ => none

/-- A path through a field that is not joined: the records at its end are searched apart. -/
def reducePath (s : Setting) (build : QueryBuilder) (leaf : Leaf) (head rest : String) (p : Place)
    (f : Field) (comodel : Model) : Run Step := do
  let d := Domain.ofLeaf rest leaf.op leaf.right
  let operand ← target d
  return Step.leaf ⟨head, .within, operand⟩ p
where
  /-- The records at the end of the path. A reference may lead to records out of use; lines whose
      owners have no column are found by the database. -/
  target (d : Domain) : Run Operand := do
    match f.type with
    | .many2one =>
      let ctx := { s.context with activeTest := false }
      return (← findWith build ctx comodel.name d).operand
    | .one2many =>
      let name ← Run.ofExcept (inverseName p.model f)
      if (comodel.field? name).any (!·.store) then
        return .value (.ofIds (← lineIds s comodel d))
      else return (← findWith build s.context comodel.name d).operand
    | _ => return (← findWith build s.context comodel.name d).operand

/-- A leaf on a field without a column: its search hook decides, and without one it holds. -/
def reduceComputed (s : Setting) (build : QueryBuilder) (leaf : Leaf) (p : Place) (f : Field) :
    Run Step := do
  match f.search with
  | none =>
    Run.log .computedFieldNotSearchable [("model", p.model.name), ("leaf", leaf.text)]
    return .emit (.literal true)
  | some name =>
    match s.registry.hook? name with
    | none =>
      Run.log .searchHookMissing [("model", p.model.name), ("hook", name), ("leaf", leaf.text)]
      return .emit (.literal true)
    | some hook =>
      match leaf.path.2 with
      | none => Step.domain (← Run.callHook name hook p.model leaf.op leaf.right) p
      | some rest =>
        let comodel ← Run.ofExcept (s.registry.comodel f)
        let d := Domain.ofLeaf rest leaf.op leaf.right
        let found ← findWith build s.context comodel.name d
        Step.domain (← Run.callHook name hook p.model .within found.operand) p

/-- A leaf on an attachment: whether there is one can be asked, other comparisons hold. -/
def reduceAttachment (s : Setting) (leaf : Leaf) (p : Place) (f : Field) : Run Step :=
  let attached := Select.attached s.context.attachmentTable p.model.name f.name
  match leaf.op, leaf.right.isTruthy with
  | .eq, false => return Step.leaf ⟨"id", .notIn, .subquery attached⟩ p
  | .ne, false => return Step.leaf ⟨"id", .within, .subquery attached⟩ p
  | _, _ => do
    Run.log .binarySearchIgnored [("model", p.model.name), ("leaf", leaf.text)]
    return .emit (.literal true)

/-- A leaf on a many2one field. -/
def reduceMany2one (s : Setting) (build : QueryBuilder) (leaf : Leaf) (head : String) (p : Place)
    (comodel : Model) : Run Step := do
  match Direction.ofOperator? leaf.op with
  | some dir =>
    let ids ← rootIds s leaf comodel
    if comodel.name = p.model.name then
      Step.domain (← hierarchyDomain s build dir ids p.model (some head) .ids) p
    else
      Step.domain (← hierarchyDomain s build dir ids comodel none (.via head)) p
  | none =>
    match leaf.right with
    | .value v =>
      if (names? v).isSome then
        return Step.leaf (← nameLeaf s leaf comodel v) p
      else emitLeaf s leaf p
    | .subquery _ => emitLeaf s leaf p

/-- A hierarchy leaf on the id. -/
def reduceIdHierarchy (s : Setting) (build : QueryBuilder) (leaf : Leaf) (p : Place) : Run Step :=
  match Direction.ofOperator? leaf.op with
  | some dir => do
    let ids ← rootIds s leaf p.model
    Step.domain (← hierarchyDomain s build dir ids p.model none .ids) p
  | none => Run.fail (.invalidLeaf leaf.text .notHierarchy)

/-- A leaf of a known kind. -/
def reduceKind (s : Setting) (build : QueryBuilder) (leaf : Leaf) (p : Place) : FieldKind → Run Step
  | .inherited parent link => return Step.followTo leaf p link parent
  | .idHierarchy => reduceIdHierarchy s build leaf p
  | .joinedPath comodel rest =>
    return Step.followTo { leaf with left := rest } p leaf.path.1 comodel
  | .linesPath f comodel rest => do
    let inverse ← Run.ofExcept (inverseName p.model f)
    let lines ← build s.context comodel.name (Domain.ofLeaf rest leaf.op leaf.right)
    let owners := lines.subselect (.column ⟨lines.tableAlias, inverse⟩)
    return Step.leaf ⟨"id", .within, .subquery owners⟩ p
  | .path f comodel rest => reducePath s build leaf leaf.path.1 rest p f comodel
  | .computed f => reduceComputed s build leaf p f
  | .one2many f comodel => reduceOne2many s build leaf p f comodel
  | .many2many f comodel => reduceMany2many s build leaf p f comodel
  | .many2one comodel => reduceMany2one s build leaf leaf.path.1 p comodel
  | .attachment f => reduceAttachment s leaf p f
  | .datetime =>
    match widenDate? leaf with
    | some widened => return Step.leaf widened p
    | none => emitLeaf s leaf p
  | .translatable =>
    if leaf.right.isTruthy then do
      return .emit (← Run.ofExcept (translatedCondition leaf p s.context))
    else emitLeaf s leaf p
  | .plain => emitLeaf s leaf p

/-- What becomes of a leaf at a place. `=?` is decided before the field is looked up. -/
def reduce (s : Setting) (build : QueryBuilder) (leaf : Leaf) (p : Place) : Run Step := do
  if leaf.op = .eqIfSet then
    if leaf.right.isUnset then return .emit (.literal true)
    else return Step.leaf { leaf with op := .eq } p
  else
    reduceKind s build leaf p (← Run.ofExcept (classify s.registry p.model leaf))

end RecordFilter.Compile
