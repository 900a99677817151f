import RecordFilter.Compile.IdSet
import RecordFilter.Compile.Nested

/-! Records given by name: names become ids before a leaf is compiled. -/

namespace RecordFilter.Compile

/-- The texts of a list, if it holds nothing else. -/
def texts? : List Json → Option (List String)
  | [] => some []
  | .str s :: rest => (texts? rest).map (s :: ·)
  | _ => none

/-- The names in a value: one text, or the texts of a list that is not empty. -/
def names? : Json → Option (List String)
  | .str s => some [s]
  | .arr (item :: rest) => texts? (item :: rest)
  | _ => none

/-- The integers of a list, if it holds nothing else. -/
def integers? : List Json → Option (List Int)
  | [] => some []
  | item :: rest =>
    match item.int64?, integers? rest with
    | some n, some ns => some (n :: ns)
    | _, _ => none

/-- The records of a model whose name contains one of some names. -/
def idsOfNames (s : Setting) (m : Model) (options : SearchOptions) : List String → Run IdSet
  | [] => return IdSet.empty
  | name :: rest => do
    let found ← Run.nameSearch s.backend m (.str name) .ilike options
    let others ← idsOfNames s m options rest
    return others.addAll found

/-- Logs that no id was given where ids were expected. -/
def noticeNoId (leaf : Leaf) : Run Unit :=
  Run.log .unexpectedFalsyId [("leaf", leaf.text), ("interpreted_as", "[]")]

/-- The ids that the right side of a hierarchy leaf stands for. -/
def rootIds (s : Setting) (leaf : Leaf) (m : Model) : Run (List Int) :=
  match leaf.right with
  | .subquery _ => Run.fail (.invalidLeaf leaf.text .neitherIdsNorNames)
  | .value v =>
    match names? v, v with
    | some names, _ => return (← idsOfNames s m { activeTest := s.context.activeTest } names).toList
    | none, .bool false => do
      noticeNoId leaf
      return []
    | none, .int n =>
      match (Json.int n).int64? with
      | some id =>
        if id = 0 then do
          noticeNoId leaf
          return []
        else return [id]
      | none => Run.fail (.invalidLeaf leaf.text .idsNotIntegers)
    | none, .float _ => Run.fail (.invalidLeaf leaf.text .idsNotIntegers)
    | none, .arr items =>
      match integers? items with
      | some ids => return ids
      | none => Run.fail (.invalidLeaf leaf.text .idsNotIntegers)
    | none, _ => Run.fail (.invalidLeaf leaf.text .neitherIdsNorNames)

/-- The operator that compares names, by whether they are a list. Ordering operators become `in`. -/
def nameOperator (isList : Bool) : Operator → Operator
  | .lt | .le | .gt | .ge => .within
  | .within => if isList then .within else .eq
  | .notIn => if isList then .notIn else .ne
  | .eq => if isList then .within else .eq
  | .ne => if isList then .notIn else .ne
  | op => op

/-- A leaf on a many2one field with names, as a leaf with ids. Records out of use count, and a
    negative operator also takes the empty reference. -/
def nameLeaf (s : Setting) (leaf : Leaf) (comodel : Model) (names : Json) : Run Leaf := do
  let op := nameOperator names.arr?.isSome leaf.op
  let ids ← Run.nameSearch s.backend comodel names op { activeTest := false }
  let values := ids.map Json.int ++ if op.isNegative then [.bool false] else []
  return ⟨leaf.left, .within, .value (.arr values)⟩

end RecordFilter.Compile
