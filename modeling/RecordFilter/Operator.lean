/-! The comparison operators of leaves: symbols, negations and SQL keywords. -/

namespace RecordFilter

/-- How a leaf compares a field with its operand. -/
inductive Operator
  | eq
  | ne
  | lt
  | le
  | gt
  | ge
  /-- True when the operand is unset, and else `=`. -/
  | eqIfSet
  /-- A pattern taken as it stands. -/
  | eqLike
  | eqIlike
  | like
  | notLike
  | ilike
  | notIlike
  | within
  | notIn
  | childOf
  | parentOf
deriving DecidableEq, Repr

namespace Operator

/-- The symbol in domains. -/
def symbol : Operator → String
  | eq => "="
  | ne => "!="
  | lt => "<"
  | le => "<="
  | gt => ">"
  | ge => ">="
  | eqIfSet => "=?"
  | eqLike => "=like"
  | eqIlike => "=ilike"
  | like => "like"
  | notLike => "not like"
  | ilike => "ilike"
  | notIlike => "not ilike"
  | within => "in"
  | notIn => "not in"
  | childOf => "child_of"
  | parentOf => "parent_of"

/-- The operator of a symbol; `<>` is another way to write `!=`. -/
def ofSymbol? (s : String) : Option Operator :=
  if s = "=" then some eq
  else if s = "!=" ∨ s = "<>" then some ne
  else if s = "<" then some lt
  else if s = "<=" then some le
  else if s = ">" then some gt
  else if s = ">=" then some ge
  else if s = "=?" then some eqIfSet
  else if s = "=like" then some eqLike
  else if s = "=ilike" then some eqIlike
  else if s = "like" then some like
  else if s = "not like" then some notLike
  else if s = "ilike" then some ilike
  else if s = "not ilike" then some notIlike
  else if s = "in" then some within
  else if s = "not in" then some notIn
  else if s = "child_of" then some childOf
  else if s = "parent_of" then some parentOf
  else none

theorem ofSymbol?_symbol (op : Operator) : ofSymbol? op.symbol = some op := by
  cases op <;> decide

/-- The lower case of a character, as far as operator symbols go: the capitals of ASCII and the
    Kelvin sign are all the characters whose lower case is a letter of ASCII. -/
def lowerChar (c : Char) : Char := if c = '\u212a' then 'k' else c.toLower

/-- The operator of a symbol in any case. -/
def ofAnyCase? (s : String) : Option Operator := ofSymbol? (String.ofList (s.toList.map lowerChar))

/-- The operator with the opposite truth value, where there is one. -/
def negate? : Operator → Option Operator
  | lt => some ge
  | ge => some lt
  | gt => some le
  | le => some gt
  | eq => some ne
  | ne => some eq
  | within => some notIn
  | notIn => some within
  | like => some notLike
  | notLike => some like
  | ilike => some notIlike
  | notIlike => some ilike
  | _ => none

theorem negate?_symm {op op' : Operator} (h : op.negate? = some op') : op'.negate? = some op := by
  cases op <;> simp_all [negate?] <;> subst h <;> rfl

/-- Negative operators also match an unset column. -/
def isNegative : Operator → Bool
  | ne | notLike | notIlike | notIn => true
  | _ => false

/-- Operators that follow the parent links of records. -/
def isHierarchy : Operator → Bool
  | childOf | parentOf => true
  | _ => false

/-- Pattern operators that look for their operand anywhere in the column. -/
def isContains : Operator → Bool
  | like | notLike | ilike | notIlike => true
  | _ => false

/-- Operators that compare with a pattern. -/
def isPattern : Operator → Bool
  | eqLike | eqIlike => true
  | op => op.isContains

/-- The symbol in SQL, in lower case. -/
def sqlSymbol : Operator → String
  | eqLike => "like"
  | eqIlike => "ilike"
  | op => op.symbol

/-- The keyword in SQL. -/
def keyword (op : Operator) : String := String.ofList (op.sqlSymbol.toList.map Char.toUpper)

end Operator

end RecordFilter
