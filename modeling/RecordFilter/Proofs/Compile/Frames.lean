import RecordFilter.Proofs.Compile.Balance

/-! What a compilation leaves alone: of the query that it is given it changes nothing but the joins, and these
    it only adds to. -/

namespace RecordFilter

/-- The second query is the first one with more joins at most. -/
structure Sql.Query.Extends (q q' : Query) : Prop where
  table : q'.table = q.table
  tableAlias : q'.tableAlias = q.tableAlias
  joins : q.joins <+: q'.joins
  conditions : q'.conditions = q.conditions
  window : q'.window = q.window

namespace Sql.Query.Extends
variable {q q' q'' : Query}

theorem refl (q : Query) : q.Extends q := ⟨rfl, rfl, List.prefix_refl _, rfl, rfl⟩

theorem trans (h : q.Extends q') (h' : q'.Extends q'') : q.Extends q'' :=
  ⟨h'.table.trans h.table, h'.tableAlias.trans h.tableAlias, h.joins.trans h'.joins,
    h'.conditions.trans h.conditions, h'.window.trans h.window⟩

theorem addJoin (q : Query) (j : Join) : q.Extends (q.addJoin j) := by
  unfold Query.addJoin
  split
  · exact refl q
  · exact ⟨rfl, rfl, List.prefix_append _ _, rfl, rfl⟩

end Sql.Query.Extends

namespace Compile
open Sql

variable {s : Setting} {build : QueryBuilder}

/-- What becomes of a leaf in the machine: the query gets a join at most. -/
theorem Machine.take_extends (q : Query) (results : List Cond) (rest : List Work) (step : Step) :
    q.Extends (take q results rest step).query := by
  cases step with
  | emit c => exact .refl q
  | requeue items => exact .refl q
  | follow join item => exact .addJoin q join

theorem Machine.step_extends {item : Work} {rest : List Work} {results : List Cond} {q : Query} {t t' : Trace}
    {next : Machine} (h : (step s build item rest results q).Gives t next t') : q.Extends next.query := by
  unfold step at h
  split at h
  · cases h
    exact .refl q
  · cases h
    exact .refl q
  · cases h
    exact .refl q
  · cases h
    exact .refl q
  · cases h
    exact .refl q
  · obtain ⟨next', t₁, -, hpure⟩ := Run.gives_bind.mp h
    cases hpure
    exact take_extends q _ rest next'
  · cases h

theorem Machine.Reaches.extends {m m' : Machine} (h : Reaches s build m m') : m.query.Extends m'.query := by
  induction h with
  | refl m => exact .refl m.query
  | step hstep _ ih => exact (step_extends hstep).trans ih

/-- Compiling a domain adds to the joins of the query and changes nothing else of it. -/
theorem compileOn_extends {fuel : Nat} {p : Place} {d : Domain} {q q' : Query} {c : Cond} {t t' : Trace}
    (h : (Compiler.compileOn s build fuel p d q).run t = ((.ok c, q'), t')) : q.Extends q' := by
  unfold Compiler.compileOn at h
  split at h
  · cases h
  · exact (Machine.reaches_of_run h).extends

end Compile
end RecordFilter
