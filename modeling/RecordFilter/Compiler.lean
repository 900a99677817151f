import RecordFilter.Compile.Machine

/-! The compiler: domains on models of a registry become queries. Reducing a leaf may need queries of
its own and may go on for ever where search hooks or parents refer to each other, so everything here
takes an amount of fuel: the number of tokens done in one query, and of queries inside queries. -/

namespace RecordFilter

open Compile Sql

/-- A compiler over a registry and a database. -/
structure Compiler where
  registry : Registry
  backend : Backend := Backend.offline
  context : Context

namespace Compiler

/-- What a compilation in a context works with. -/
def setting (c : Compiler) (ctx : Context) : Setting := ⟨c.registry, c.backend, ctx⟩

/-- Logs a compiled domain. -/
def noticeCompiled (m : Model) (d : Domain) (c : Cond) (q : Query) : Run Unit :=
  Run.log .domainCompiled
    [("model", m.name), ("leaves", Nat.repr d.leaves.length),
      ("params", Nat.repr c.fragment.params.length), ("joins", Nat.repr q.joins.length)]

/-- Compiles a domain at a place: its condition, and the query with the joins that it needs. The query
    comes back also when the domain cannot be compiled. -/
def compileOn (s : Setting) (build : QueryBuilder) (fuel : Nat) (p : Place) (d : Domain) (q : Query) :
    StateM Trace (Except Stop Cond × Query) :=
  match Domain.distributeNot d with
  | .error e => return (.error (.error e), q)
  | .ok e => Machine.run s build fuel (Machine.start p e q)

/-- Compiles a domain into a query: its condition and the joins that it needs are added. -/
def compileWith (s : Setting) (build : QueryBuilder) (fuel : Nat) (model : String) (d : Domain)
    (q : Query) : StateM Trace (Except Stop Unit × Query) :=
  match s.registry.model model with
  | .error e => return (.error (.error e), q)
  | .ok m => do
    match ← compileOn s build fuel ⟨m, q.tableAlias⟩ d q with
    | (.error stop, q) => return (.error stop, q)
    | (.ok c, q) =>
      let _ ← (noticeCompiled m d c q).run
      return (.ok (), q.addCondition c)

/-- Builds the query of a domain on a model in a context. Records out of use are left out if the
    context says so. -/
def queryIn (c : Compiler) : Nat → QueryBuilder
  | 0 => fun _ _ _ => throw .unfinished
  | fuel + 1 => fun ctx model d => do
    let m ← Run.ofExcept (c.registry.model model)
    let d ← Run.ofExcept (withActive c.registry ctx m d)
    if d.isEmpty then
      return Query.ofTable m.table
    else
      match ← (compileWith (c.setting ctx) (queryIn c fuel) fuel model d (.ofTable m.table) :) with
      | (.ok (), q) => return q
      | (.error stop, _) => throw stop

/-- Compiles a domain into a query that is under construction. -/
def compile (c : Compiler) (fuel : Nat) (model : String) (d : Domain) (q : Query) :
    StateM Trace (Except Stop Unit × Query) :=
  compileWith (c.setting c.context) (c.queryIn fuel) fuel model d q

/-- The query of the records of a domain. -/
def query (c : Compiler) (fuel : Nat) (model : String) (d : Domain) : Run Query :=
  c.queryIn fuel c.context model d

/-- The records of a domain: none for certain, or those of a query in the order of ids. -/
def search (c : Compiler) (fuel : Nat) (model : String) (d : Domain) : Run Found :=
  findWith (c.queryIn fuel) c.context model d

/-- The domain of the descendants or ancestors of some records. -/
def hierarchyDomain (c : Compiler) (fuel : Nat) (dir : Direction) (ids : List Int) (m : Model)
    (parent : Option String) (target : Target) : Run Domain :=
  Compile.hierarchyDomain (c.setting c.context) (c.queryIn fuel) dir ids m parent target

/-- A compiled domain: the query of its ids and the joins in it. -/
structure Explanation where
  model : String
  table : String
  select : Fragment
  joins : List Join

/-- Compiles a domain and shows the query. -/
def explain (c : Compiler) (fuel : Nat) (model : String) (d : Domain) : Run Explanation := do
  let m ← Run.ofExcept (c.registry.model model)
  let q ← c.query fuel model d
  return { model := m.name, table := m.table, select := (q.select []).fragment, joins := q.joins }

end Compiler

end RecordFilter
