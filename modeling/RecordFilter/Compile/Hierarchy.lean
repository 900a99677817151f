import RecordFilter.Compile.IdSet
import RecordFilter.Compile.Nested
import RecordFilter.Text.Integer

/-! Descendants and ancestors of records. Where a model stores the path from the root to each
record, the paths are compared; else the parent links are walked level by level. -/

namespace RecordFilter.Compile

/-- Which way a hierarchy is followed. -/
inductive Direction
  | descendants
  | ancestors
deriving DecidableEq, Repr

/-- How the found records are expressed. -/
inductive Target
  /-- As a domain on their own model. -/
  | ids
  /-- As a leaf on a field that refers to them. -/
  | via (field : String)
deriving DecidableEq, Repr

/-- The direction of a hierarchy operator. -/
def Direction.ofOperator? : Operator → Option Direction
  | .childOf => some .descendants
  | .parentOf => some .ancestors
  | _ => none

/-- Logs how many records a hierarchy gave. -/
def noticeExpanded (m : Model) (strategy : String) (count : Nat) : Run Unit :=
  Run.log .hierarchyExpanded
    [("model", m.name), ("strategy", strategy), ("records", Nat.repr count)]

/-! ### Stored paths -/

/-- The descendants of records with some paths: those whose path starts with one of them. -/
def pathDomain (paths : List (Int × String)) : Except Error Domain :=
  Domain.anyOf (paths.map fun p => Domain.ofLeaf "parent_path" .eqLike (.value (.str (p.2 ++ "%"))))

/-- The parts of a text between slashes, empty ones left out. -/
def labels (path : List Char) : List (List Char) := (go path).filter (!·.isEmpty)
where
  /-- All parts, empty ones too. -/
  go : List Char → List (List Char)
    | [] => [[]]
    | c :: rest =>
      if c = '/' then [] :: go rest
      else match go rest with
        | [] => [[c]]
        | part :: parts => (c :: part) :: parts

/-- The integers of some labels. -/
def labelIds? : List (List Char) → Option (List Int)
  | [] => some []
  | label :: rest =>
    match Text.int64? label, labelIds? rest with
    | some id, some ids => some (id :: ids)
    | _, _ => none

/-- The ids in some paths. -/
def pathIds (m : Model) (found : IdSet) : List (Int × String) → Except Error IdSet
  | [] => .ok found
  | (id, path) :: rest =>
    match labelIds? (labels path.toList) with
    | some ids => pathIds m (found.addAll ids) rest
    | none => .error (.backend (.badParentPath m.name id path))

/-- The domain of the descendants, by stored paths. -/
def descendantsByPath (s : Setting) (m : Model) (ids : List Int) : Run Domain := do
  let paths ← Run.parentPaths s.backend m ids
  noticeExpanded m "parent_path" paths.length
  Run.ofExcept (pathDomain paths)

/-- The domain of the ancestors, by stored paths. -/
def ancestorsByPath (s : Setting) (m : Model) (ids : List Int) : Run Domain := do
  let paths ← Run.parentPaths s.backend m ids
  let found ← Run.ofExcept (pathIds m .empty paths)
  noticeExpanded m "parent_path" found.toList.length
  return Domain.ofLeaf "id" .within (.value (.ofIds found.toList))

/-! ### Parent links -/

/-- The records one level away from some records. -/
def nextLevel (s : Setting) (dir : Direction) (m : Model) (parent : String) (ids : List Int) :
    Run (List Int) :=
  match dir with
  | .descendants =>
    Run.search s.backend m (Domain.ofLeaf parent .within (.value (.ofIds ids)))
      { privileged := true, activeTest := s.context.activeTest }
  | .ancestors => Run.references s.backend m ids parent

/-- Walks from the records of `frontier`, at most `rounds` levels. No record is visited twice. -/
def walk (s : Setting) (dir : Direction) (m : Model) (parent : String) :
    Nat → IdSet → IdSet → Run IdSet
  | 0, visited, frontier =>
    if frontier.toList.isEmpty then return visited
    else Run.fail (.hierarchyLimit m.name s.context.maxIterations)
  | rounds + 1, visited, frontier => do
    if frontier.toList.isEmpty then
      return visited
    else
      let visited := visited.addAll frontier.toList
      let next ← nextLevel s dir m parent frontier.toList
      walk s dir m parent rounds visited (.ofList (next.filter (!visited.contains ·)))

/-- The domain of the records found by walking. -/
def byLinks (s : Setting) (dir : Direction) (m : Model) (parent : String) (ids : List Int) :
    Run Domain := do
  let found ← walk s dir m parent s.context.maxIterations .empty (.ofList ids)
  noticeExpanded m "adjacency" found.toList.length
  return Domain.ofLeaf "id" .within (.value (.ofIds found.toList))

/-! ### Both -/

/-- The domain of the records of a hierarchy on their own model. Stored paths follow the model's own
    parent field only. -/
def hierarchy (s : Setting) (dir : Direction) (ids : List Int) (m : Model)
    (parent : Option String) : Run Domain :=
  let parentName := parent.getD m.parentName
  if m.parentStore && parentName = m.parentName then
    match dir with
    | .descendants => descendantsByPath s m ids
    | .ancestors => ancestorsByPath s m ids
  else byLinks s dir m parentName ids

/-- The domain of the descendants or ancestors of some records, the records among them. -/
def hierarchyDomain (s : Setting) (build : QueryBuilder) (dir : Direction) (ids : List Int)
    (m : Model) (parent : Option String) (target : Target) : Run Domain := do
  if ids.isEmpty then
    return Domain.never
  else
    let d ← hierarchy s dir ids m parent
    match target with
    | .ids => return d
    | .via field =>
      let found ← findWith build s.context m.name d
      return Domain.ofLeaf field .within found.operand

end RecordFilter.Compile
