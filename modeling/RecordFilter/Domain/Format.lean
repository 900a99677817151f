import RecordFilter.Domain.Basic
import RecordFilter.Error

/-! Domains as JSON: a list of the strings `&`, `|` and `!` and of three-item lists for leaves. -/

namespace RecordFilter

/-- Reads the constant of a leaf with a number on the left. -/
def Token.ofConstant (source : Json) (n : Json) : Except Error Token :=
  match n.int64? with
  | some 1 => .ok .true
  | some 0 => .ok .false
  | _ => .error (.invalidLeaf source.text .constant)

/-- Reads a leaf from its three items. -/
def Token.ofItems (source left op right : Json) : Except Error Token :=
  match op with
  | .str symbol =>
    match Operator.ofAnyCase? symbol with
    | none => .error (.invalidLeaf source.text (.unknownOperator symbol))
    | some op =>
      match left, op, right with
      | .str path, op, right =>
        if path = "" then .error (.invalidLeaf source.text .leftNotPath)
        else .ok (.leaf ⟨path, op, .value right⟩)
      | .int n, .eq, .int 1 => Token.ofConstant source (.int n)
      | .float x, .eq, .int 1 => Token.ofConstant source (.float x)
      | _, _, _ => .error (.invalidLeaf source.text .leftNotPath)
  | _ => .error (.invalidLeaf source.text .operatorNotText)

/-- Reads a token. -/
def Token.ofJson (source : Json) : Except Error Token :=
  match source with
  | .str symbol =>
    if symbol = "&" then .ok .and
    else if symbol = "|" then .ok .or
    else if symbol = "!" then .ok .not
    else .error (.malformed (.unknownSymbol symbol))
  | .arr [left, op, right] => Token.ofItems source left op right
  | .arr _ => .error (.invalidLeaf source.text .notThreeItems)
  | _ => .error (.malformed (.unexpectedToken source.text))

/-- Reads a list of tokens up to the first that is none. -/
def Domain.ofItems : List Json → Except Error Domain
  | [] => .ok []
  | item :: rest =>
    match Token.ofJson item with
    | .error e => .error e
    | .ok token =>
      match Domain.ofItems rest with
      | .error e => .error e
      | .ok tokens => .ok (token :: tokens)

/-- Reads a domain. -/
def Domain.ofJson : Json → Except Error Domain
  | .arr items => Domain.ofItems items
  | source => .error (.malformed (.notAList source.text))

/-- A fragment as JSON. -/
def Sql.Fragment.toJson (f : Sql.Fragment) : Json :=
  .ofMembers [("sql", .str f.sql), ("params", .arr (f.params.map Sql.Param.toJson))]

/-- An operand as JSON; a subquery by its SQL. -/
def Operand.toJson : Operand → Json
  | .value v => v
  | .subquery s => s.fragment.toJson

/-- A token as JSON. -/
def Token.toJson : Token → Json
  | .and => .str "&"
  | .or => .str "|"
  | .not => .str "!"
  | .true => .arr [.int 1, .str "=", .int 1]
  | .false => .arr [.int 0, .str "=", .int 1]
  | .leaf l => .arr [.str l.left, .str l.op.symbol, l.right.toJson]

/-- A domain as JSON. -/
def Domain.toJson (d : Domain) : Json := .arr (d.map Token.toJson)

end RecordFilter
