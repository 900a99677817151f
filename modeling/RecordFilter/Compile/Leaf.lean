import RecordFilter.Compile.Context
import RecordFilter.Log.Entry
import RecordFilter.Schema.Registry

/-! Conditions of leaves on plain columns. SQL's null stands for an unset field: `false` and `null`
look for it, and negative operators match it too. -/

namespace RecordFilter.Compile

open Sql

/-- Where a leaf is read: a model, and the alias of its table in the query. -/
structure Place where
  model : Model
  tableAlias : String

/-- The column of a field. -/
def Place.column (p : Place) (field : String) : Column := ⟨p.tableAlias, field⟩

/-! ### Lists of values -/

/-- Whether a boolean is among some bound values. -/
def hasBool (b : Bool) : List Param → Bool
  | [] => false
  | .bool c :: rest => c == b || hasBool b rest
  | _ :: rest => hasBool b rest

/-- What a list of values asks for: the bound values, and whether an unset field belongs to them. -/
structure Wanted where
  params : List Param := []
  unset : Bool := false

namespace Wanted

/-- Adds a bound value. -/
def add (w : Wanted) (p : Param) : Wanted := { w with params := w.params ++ [p] }

/-- Adds a boolean that is not there yet. -/
def addBool (w : Wanted) (b : Bool) : Wanted := if hasBool b w.params then w else w.add (.bool b)

/-- Adds the unset field. -/
def addUnset (w : Wanted) : Wanted := { w with unset := true }

/-- Adds an item of a list. `false` means unset, and on a boolean column also itself. Lists and
    objects cannot be added. -/
def addItem? (isBoolean : Bool) (w : Wanted) : Json → Option Wanted
  | .null => some w.addUnset
  | .bool b =>
    if isBoolean then some (if b then w.addBool true else (w.addUnset).addBool false)
    else some (if b then w.add (.bool true) else w.addUnset)
  | v => (Param.ofJson? v).map w.add

/-- Adds the items of a list. -/
def addItems? (isBoolean : Bool) (w : Wanted) : List Json → Option Wanted
  | [] => some w
  | item :: rest =>
    match w.addItem? isBoolean item with
    | none => none
    | some w => addItems? isBoolean w rest

/-- What the items of a list ask for. -/
def ofItems? (isBoolean : Bool) (items : List Json) : Option Wanted := addItems? isBoolean {} items

/-- The condition that the column, through `left`, is wanted or is not. -/
def condition (w : Wanted) (left : Expr) (column : Column) (positive : Bool) : Cond :=
  match w.params, positive, w.unset with
  | [], true, false => .literal false
  | [], false, false => .literal true
  | [], true, true => .group (.isNull column)
  | [], false, true => .group (.notNull column)
  | ps, true, false => .group (.member left true (.params ps))
  | ps, true, true => .or (.group (.member left true (.params ps))) (.isNull column)
  | ps, false, false => .or (.group (.member left false (.params ps))) (.isNull column)
  | ps, false, true => .and (.group (.member left false (.params ps))) (.notNull column)

end Wanted

/-- Membership in a literal: a list, or a boolean that asks whether the field is set. -/
def inValues (leaf : Leaf) (column : Column) (v : Json) (isBoolean : Bool) : Except Error Cond :=
  let positive := leaf.op = .within
  match v with
  | .bool flag => .ok (.group (if positive == flag then .notNull column else .isNull column))
  | .arr items =>
    match Wanted.ofItems? isBoolean items with
    | some w => .ok (w.condition (.column column) column positive)
    | none => .error (.invalidLeaf leaf.text .nested)
  | _ => .error (.invalidLeaf leaf.text (.needsList leaf.op))

/-- Membership in the rows of a subquery. -/
def inSubquery (leaf : Leaf) (column : Column) (s : Select) : Except Error Cond :=
  match leaf.op with
  | .within => .ok (.group (.member (.column column) true (.select s)))
  | .notIn => .ok (.group (.member (.column column) false (.select s)))
  | _ => .error (.invalidLeaf leaf.text .subqueryOperator)

/-! ### Single values -/

/-- A value inside a pattern; an unset one is empty. -/
def patternText : Json → String
  | .str s => s
  | .null => ""
  | .bool false => ""
  | v => v.text

/-- The pattern that finds a value anywhere. -/
def containsPattern (v : Json) : Param := .text ("%" ++ patternText v ++ "%")

/-- A comparison with a value. A negative operator matches an unset field unless the value counts as
    false, and so does looking for an empty text. -/
def comparison (leaf : Leaf) (column : Column) (v : Json) (unaccent : Bool) : Except Error Cond :=
  let op := leaf.op
  let left := if op.isPattern then Expr.cast column else .column column
  let param? := if op.isContains then some (containsPattern v) else Param.ofJson? v
  match param? with
  | none => .error (.invalidLeaf leaf.text (.needsScalar op))
  | some p =>
    let base := Cond.group (.compare left op p (op.isPattern && unaccent))
    if (op.isContains && !v.isTruthy) || (v.isTruthy && op.isNegative) then
      .ok (.or base (.isNull column))
    else .ok base

/-- Equality with an unset value, or on a boolean column, where unset counts as `false`. -/
def equality (leaf : Leaf) (column : Column) (v : Json) (isBoolean unaccent : Bool) :
    Except Error Cond :=
  match leaf.op, v.isUnset, v, isBoolean with
  | .eq, true, _, true => .ok (.or (.isNull column) (.isFalse column))
  | .ne, false, .bool true, true => .ok (.or (.isNull column) (.isFalse column))
  | .ne, true, _, true => .ok (.and (.notNull column) (.notFalse column))
  | .eq, true, _, false => .ok (.group (.isNull column))
  | .ne, true, _, false => .ok (.group (.notNull column))
  | _, _, _, _ => comparison leaf column v unaccent

/-- A leaf with a literal value. -/
def literalLeaf (leaf : Leaf) (column : Column) (v : Json) (isBoolean unaccent : Bool) :
    Except Error Cond :=
  match leaf.op with
  | .within | .notIn => inValues leaf column v isBoolean
  | .childOf | .parentOf => .error (.invalidLeaf leaf.text (.needsRelation leaf.op))
  | .eqIfSet =>
    if v.isUnset then .ok (.literal true)
    else if isBoolean then equality { leaf with op := .eq } column v isBoolean unaccent
    else comparison { leaf with op := .eq } column v unaccent
  | .eq | .ne =>
    if v.isUnset || isBoolean then equality leaf column v isBoolean unaccent
    else comparison leaf column v unaccent
  | _ => comparison leaf column v unaccent

/-- The condition of a leaf on a column of the model's own table. -/
def plainCondition (leaf : Leaf) (p : Place) (ctx : Context) : Except Error Cond :=
  match p.model.field? leaf.left with
  | none => .error (.invalidField p.model.name leaf.left leaf.text)
  | some f =>
    match leaf.right with
    | .subquery s => inSubquery leaf (p.column leaf.left) s
    | .value v => literalLeaf leaf (p.column leaf.left) v (f.type = .boolean) ctx.unaccent

/-- The event to log with a leaf: `in` and `not in` are meant for lists. -/
def leafNotice? (leaf : Leaf) : Option (Log.Event × List (String × String)) :=
  match leaf.op, leaf.right with
  | .within, .value (.bool _) | .notIn, .value (.bool _) =>
    some (.legacyBooleanIn, [("leaf", leaf.text), ("hint", "use = or != instead")])
  | _, _ => none

/-! ### Translated columns -/

/-- The condition of a leaf on the value of a translated column in the language of the context. -/
def translatedCondition (leaf : Leaf) (p : Place) (ctx : Context) : Except Error Cond :=
  let column := p.column leaf.left
  let left := Expr.translated column ctx.lang
  let op := leaf.op
  match leaf.right with
  | .subquery _ => .error (.invalidLeaf leaf.text .needsValue)
  | .value v =>
    if op = .within ∨ op = .notIn then
      match v with
      | .arr items =>
        match Wanted.ofItems? false items with
        | some w => .ok (w.condition left column (op = .within))
        | none => .error (.invalidLeaf leaf.text .nested)
      | _ => .error (.invalidLeaf leaf.text (.needsList op))
    else
      let param? := if op.isContains then some (containsPattern v) else Param.ofJson? v
      match param? with
      | none => .error (.malformed (.notBindable v.text))
      | some p =>
        let base := Cond.group (.compare left op p (op.isPattern && ctx.unaccent))
        .ok (if op.isNegative then .or base (.isNull column) else base)

end RecordFilter.Compile
