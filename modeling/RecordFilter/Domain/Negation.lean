import RecordFilter.Domain.Normal

/-! Domains without inner negations: a negated term becomes the term with its parts negated, down to
the operators of the leaves. Only a leaf whose operator has no negation keeps a `!`. -/

namespace RecordFilter.Domain

/-- A leaf under a negation. -/
def negateLeaf (l : Leaf) : Domain :=
  match l.op.negate? with
  | some op => [.leaf { l with op := op }]
  | none => [.not, .leaf l]

/-- Moves negations inward. `pending` says for each term still to come whether it is negated, the
    next one first. -/
def push : List Bool → Domain → Except Error Domain
  | _, [] => .ok []
  | [], _ :: _ => .error (.malformed .surplusTokens)
  | negated :: pending, .not :: rest => push ((!negated) :: pending) rest
  | negated :: pending, .and :: rest =>
    (push (negated :: negated :: pending) rest).map ((if negated then .or else .and) :: ·)
  | negated :: pending, .or :: rest =>
    (push (negated :: negated :: pending) rest).map ((if negated then .and else .or) :: ·)
  | negated :: pending, .true :: rest =>
    (push pending rest).map ((if negated then .false else .true) :: ·)
  | negated :: pending, .false :: rest =>
    (push pending rest).map ((if negated then .true else .false) :: ·)
  | negated :: pending, .leaf l :: rest =>
    (push pending rest).map ((if negated then negateLeaf l else [.leaf l]) ++ ·)

/-- The normal form of a domain with its negations moved to the leaves. -/
def distributeNot (d : Domain) : Except Error Domain :=
  match normalize d with
  | .error e => .error e
  | .ok n => push [false] n

end RecordFilter.Domain
