import RecordFilter.Domain.Normal

/-! Conjunctions and disjunctions of several domains. -/

namespace RecordFilter.Domain

/-- Whether a domain is just the constant that always holds. -/
def isAlways : Domain → Bool
  | [.true] => true
  | _ => false

/-- Whether a domain is just the constant that never holds. -/
def isNever : Domain → Bool
  | [.false] => true
  | _ => false

/-- The normal forms of the domains that count, or `none` if one of them decides the result. Those
    that `skip` picks and empty ones do not count; one that `decide` picks ends the search. -/
def members (skip decide : Domain → Bool) : List Domain → Except Error (Option (List Domain))
  | [] => .ok (some [])
  | d :: rest =>
    if skip d then members skip decide rest
    else if decide d then .ok none
    else if d.isEmpty then members skip decide rest
    else
      match normalize d with
      | .error e => .error e
      | .ok n =>
        match members skip decide rest with
        | .error e => .error e
        | .ok none => .ok none
        | .ok (some ns) => .ok (some (n :: ns))

/-- Some normal domains with an operator between them. -/
def joined (op : Token) (unit : Domain) (ns : List Domain) : Domain :=
  match ns with
  | [] => unit
  | _ => List.replicate (ns.length - 1) op ++ ns.flatten

/-- The conjunction of some domains. -/
def allOf (ds : List Domain) : Except Error Domain :=
  match members isAlways isNever ds with
  | .error e => .error e
  | .ok none => .ok never
  | .ok (some ns) => .ok (joined .and always ns)

/-- The disjunction of some domains. Empty ones are left out. -/
def anyOf (ds : List Domain) : Except Error Domain :=
  match members isNever isAlways ds with
  | .error e => .error e
  | .ok none => .ok always
  | .ok (some ns) => .ok (joined .or never ns)

end RecordFilter.Domain
