import RecordFilter.Compile.Reduce

/-! The machine that compiles a domain. It works through the tokens from the last to the first;
conditions wait on a stack until the operator in front of them comes up. -/

namespace RecordFilter.Compile

open Sql

/-- The state of a compilation: the tokens to do, the next one first, the conditions that wait, the
    latest one first, and the query with the joins made so far. -/
structure Machine where
  work : List Work
  results : List Cond
  query : Query

namespace Machine

/-- The machine before a domain. -/
def start (p : Place) (d : Domain) (q : Query) : Machine :=
  ⟨(Work.ofDomain p d).reverse, [], q⟩

/-- Puts what becomes of a leaf into the machine; `rest` is the other work. -/
def take (q : Query) (results : List Cond) (rest : List Work) : Step → Machine
  | .emit c => ⟨rest, c :: results, q⟩
  | .requeue items => ⟨items.reverse ++ rest, results, q⟩
  | .follow join item => ⟨item :: rest, results, q.addJoin join⟩

/-- Does one token. -/
def step (s : Setting) (build : QueryBuilder) (item : Work) (rest : List Work) (results : List Cond)
    (q : Query) : Run Machine :=
  match item.token, results with
  | .and, a :: b :: results => return ⟨rest, .and a b :: results, q⟩
  | .or, a :: b :: results => return ⟨rest, .or a b :: results, q⟩
  | .not, a :: results => return ⟨rest, .not a :: results, q⟩
  | .true, results => return ⟨rest, .literal true :: results, q⟩
  | .false, results => return ⟨rest, .literal false :: results, q⟩
  | .leaf l, results => return take q results rest (← reduce s build l item.place)
  | _, _ => Run.fail (.malformed .missingOperands)

/-- The one condition that is left at the end. -/
def result (results : List Cond) : Except Stop Cond :=
  match results with
  | [c] => .ok c
  | _ => .error (.error (.malformed .notOneCondition))

/-- Works until nothing is left to do, for at most `fuel` tokens. The query is given back also when
    there is no condition. -/
def run (s : Setting) (build : QueryBuilder) :
    Nat → Machine → StateM Trace (Except Stop Cond × Query)
  | _, ⟨[], results, q⟩ => return (result results, q)
  | 0, ⟨_ :: _, _, q⟩ => return (.error .unfinished, q)
  | fuel + 1, ⟨item :: rest, results, q⟩ => do
    match ← (step s build item rest results q).run with
    | .ok next => run s build fuel next
    | .error stop => return (.error stop, q)

end Machine

end RecordFilter.Compile
