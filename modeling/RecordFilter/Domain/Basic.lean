import RecordFilter.Json.Text
import RecordFilter.Operator
import RecordFilter.Sql.Condition

/-! Domains: filters on records as sequences of tokens in prefix notation. -/

namespace RecordFilter

/-- The right side of a leaf. -/
inductive Operand
  | value (v : Json)
  /-- A subquery of ids. -/
  | subquery (s : Sql.Select)

namespace Operand

/-- The literal value, if it is one. -/
def value? : Operand → Option Json
  | value v => some v
  | subquery _ => none

/-- Whether the operand is `false` or `null`, which stand for "no value". -/
def isUnset : Operand → Bool
  | value v => v.isUnset
  | subquery _ => false

/-- Whether the operand counts as true; a subquery does. -/
def isTruthy : Operand → Bool
  | value v => v.isTruthy
  | subquery _ => true

/-- The integers in a literal. -/
def ids : Operand → List Int
  | value (.arr items) => items.filterMap Json.int64?
  | value v => v.int64?.toList
  | subquery _ => []

/-- The operand in messages. -/
def text : Operand → String
  | value v => v.text
  | subquery s => "(" ++ s.fragment.sql ++ ")"

end Operand

/-- A comparison of the field at a path with an operand. -/
structure Leaf where
  left : String
  op : Operator
  right : Operand

namespace Leaf

/-- The text before the first dot, and the text after it if there is a dot. -/
def splitPath : List Char → List Char × Option (List Char)
  | [] => ([], none)
  | c :: rest =>
    if c = '.' then ([], some rest)
    else match splitPath rest with
      | (head, tail) => (c :: head, tail)

/-- The first field of the path and the rest of the path. -/
def path (leaf : Leaf) : String × Option String :=
  match splitPath leaf.left.toList with
  | (head, tail) => (String.ofList head, tail.map String.ofList)

/-- The leaf in messages. -/
def text (leaf : Leaf) : String :=
  "('" ++ leaf.left ++ "', '" ++ leaf.op.symbol ++ "', " ++ leaf.right.text ++ ")"

end Leaf

/-- A token of a domain. The constants are written as the leaves `1 = 1` and `0 = 1`. -/
inductive Token
  | and
  | or
  | not
  | true
  | false
  | leaf (l : Leaf)

namespace Token

/-- How many terms the token takes. -/
def arity : Token → Nat
  | and | or => 2
  | not => 1
  | true | false | leaf _ => 0

/-- Whether the token combines terms. -/
def isOperator : Token → Bool
  | and | or | not => Bool.true
  | true | false | leaf _ => Bool.false

/-- Whether the token is the constant that holds for every record. -/
def isTrue : Token → Bool
  | true => Bool.true
  | _ => Bool.false

/-- Whether the token is the constant that holds for no record. -/
def isFalse : Token → Bool
  | false => Bool.true
  | _ => Bool.false

/-- The leaf of a token, constants apart. -/
def leaf? : Token → Option Leaf
  | leaf l => some l
  | _ => none

/-- The token in messages. -/
def text : Token → String
  | and => "'&'"
  | or => "'|'"
  | not => "'!'"
  | true => "(1, '=', 1)"
  | false => "(0, '=', 1)"
  | leaf l => l.text

end Token

/-- A sequence of tokens. -/
abbrev Domain := List Token

namespace Domain

/-- The domain of every record. -/
def always : Domain := [.true]

/-- The domain of no record. -/
def never : Domain := [.false]

/-- The domain of one leaf. -/
def ofLeaf (left : String) (op : Operator) (right : Operand) : Domain := [.leaf ⟨left, op, right⟩]

/-- The leaves in order, constants left out. -/
def leaves (d : Domain) : List Leaf := d.filterMap Token.leaf?

/-- The domain in messages. -/
def text (d : Domain) : String := "[" ++ String.intercalate ", " (d.map Token.text) ++ "]"

end Domain

end RecordFilter
