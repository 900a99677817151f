import RecordFilter.Domain.Basic
import RecordFilter.Error

/-! Normal domains: exactly one complete term, every conjunction written out. -/

namespace RecordFilter.Domain

/-- Counts from the left: how many conjunctions are implied so far, and how many terms are still
    missing to complete the last one. A token after a complete term starts a new one. -/
def count : Nat → Nat → Domain → Nat × Nat
  | implied, missing, [] => (implied, missing)
  | implied, 0, token :: rest => count (implied + 1) token.arity rest
  | implied, missing + 1, token :: rest => count implied (missing + token.arity) rest

/-- Writes out the implied conjunctions in front. The empty domain holds for every record. -/
def normalize (d : Domain) : Except Error Domain :=
  if d.isEmpty then .ok always
  else
    let (implied, missing) := count 0 1 d
    if missing = 0 then .ok (List.replicate implied .and ++ d)
    else .error (.malformed (.unbalanced d.text missing))

end RecordFilter.Domain
