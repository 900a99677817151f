import RecordFilter.Domain.Normal

/-! Domains that hold for no record whatever the leaves compare. -/

namespace RecordFilter

/-- What is known of a term without looking at records. -/
inductive Verdict
  | never
  | unknown
  | always
deriving DecidableEq, Repr

namespace Verdict

/-- A conjunction never holds if a part never does. -/
def and : Verdict → Verdict → Verdict
  | never, _ | _, never => never
  | always, b => b
  | unknown, _ => unknown

/-- A disjunction always holds if a part always does. -/
def or : Verdict → Verdict → Verdict
  | always, _ | _, always => always
  | never, b => b
  | unknown, _ => unknown

/-- The verdict on the negation. -/
def not : Verdict → Verdict
  | never => always
  | unknown => unknown
  | always => never

end Verdict

/-- Whether an operand holds no value to be found: an empty list, or another value that counts as
    false. -/
def Operand.isEmptySet : Operand → Bool
  | .subquery _ => false
  | .value (.arr items) => items.isEmpty
  | .value v => !v.isTruthy

/-- The verdict on a leaf: `in` with nothing never holds, `not in` with nothing always does. -/
def Leaf.verdict (l : Leaf) : Verdict :=
  match l.op with
  | .within => if l.right.isEmptySet then .never else .unknown
  | .notIn => if l.right.isEmptySet then .always else .unknown
  | _ => .unknown

namespace Domain

/-- Combines the verdicts on the terms that follow a token. -/
def applyToken (token : Token) (verdicts : List Verdict) : Except Error (List Verdict) :=
  match token, verdicts with
  | .and, a :: b :: rest => .ok (a.and b :: rest)
  | .or, a :: b :: rest => .ok (a.or b :: rest)
  | .not, a :: rest => .ok (a.not :: rest)
  | .true, rest => .ok (.always :: rest)
  | .false, rest => .ok (.never :: rest)
  | .leaf l, rest => .ok (l.verdict :: rest)
  | _, _ => .error (.malformed .noOperands)

/-- The verdicts on the terms of a sequence of tokens. -/
def verdicts : Domain → Except Error (List Verdict)
  | [] => .ok []
  | token :: rest =>
    match verdicts rest with
    | .error e => .error e
    | .ok vs => applyToken token vs

/-- Whether the domain holds for no record, as far as the domain alone tells. -/
def isFalse (d : Domain) : Except Error Bool :=
  match normalize d with
  | .error e => .error e
  | .ok n =>
    match verdicts n with
    | .error e => .error e
    | .ok [] => .error (.malformed .noOperands)
    | .ok (v :: _) => .ok (v = .never)

end Domain

end RecordFilter
