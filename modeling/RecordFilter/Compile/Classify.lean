import RecordFilter.Schema.Registry

/-! What the field at the head of a leaf's path asks of the compiler. -/

namespace RecordFilter.Compile

/-- How a leaf is handled. -/
inductive FieldKind
  /-- The field of a parent model, reached through a link. -/
  | inherited (parent : Model) (link : String)
  /-- Descendants or ancestors by id. -/
  | idHierarchy
  /-- A path through a many2one field that is joined. -/
  | joinedPath (comodel : Model) (rest : String)
  /-- A path through a one2many field whose lines are not searched apart. -/
  | linesPath (f : Field) (comodel : Model) (rest : String)
  /-- A path through another relational field. -/
  | path (f : Field) (comodel : Model) (rest : String)
  /-- A field without a column. -/
  | computed (f : Field)
  | one2many (f : Field) (comodel : Model)
  | many2many (f : Field) (comodel : Model)
  | many2one (comodel : Model)
  /-- A binary field whose content lies in the table of attachments. -/
  | attachment (f : Field)
  | datetime
  | translatable
  | plain

/-- The kind of a path that goes on after a field with a column. -/
def classifyPath (r : Registry) (m : Model) (leaf : Leaf) (f : Field) (rest : String) :
    Except Error FieldKind :=
  if !f.store then .ok (.computed f)
  else if !f.type.isRelational then .error (.invalidField m.name leaf.left leaf.text)
  else
    match r.comodel f with
    | .error e => .error e
    | .ok comodel =>
      if f.autoJoin then
        match f.type with
        | .many2one => .ok (.joinedPath comodel rest)
        | .one2many => .ok (.linesPath f comodel rest)
        | type => .error (.unsupported (.autoJoin type m.name f.name))
      else .ok (.path f comodel rest)

/-- The kind of a leaf on a field itself. -/
def classifyField (r : Registry) (f : Field) : Except Error FieldKind :=
  if !f.store then .ok (.computed f)
  else
    match f.type with
    | .one2many => (r.comodel f).map (.one2many f)
    | .many2many => (r.comodel f).map (.many2many f)
    | .many2one => (r.comodel f).map .many2one
    | .binary =>
      if f.attachment then .ok (.attachment f)
      else if f.translate then .ok .translatable
      else .ok .plain
    | .datetime => .ok .datetime
    | _ => if f.translate then .ok .translatable else .ok .plain

/-- The kind of a leaf on a model. -/
def classify (r : Registry) (m : Model) (leaf : Leaf) : Except Error FieldKind :=
  let (head, rest) := leaf.path
  match r.resolve? m head with
  | none => .error (.invalidField m.name leaf.left leaf.text)
  | some (.inherited parent link) => .ok (.inherited parent link)
  | some (.local f) =>
    match rest with
    | some rest => classifyPath r m leaf f rest
    | none => if head = "id" && leaf.op.isHierarchy then .ok .idHierarchy else classifyField r f

end RecordFilter.Compile
