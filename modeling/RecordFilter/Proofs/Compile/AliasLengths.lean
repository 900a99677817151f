import RecordFilter.Proofs.Compile.JoinOrder
import RecordFilter.Proofs.Sql.Abbreviations

/-! Every alias that a join introduces is a short form of the alias of its source, two underscores and its link, and so
    an identifier of at most 63 bytes: at the end of every chain of links, after every sequence of calls, and in every
    query that a compilation adds joins to, whose joins come from such calls. -/

namespace RecordFilter
open Sql

namespace Sql

theorem makeAlias_abbreviates (tableAlias link : String) :
    Abbreviates (tableAlias ++ "__" ++ link) (makeAlias tableAlias link) := (shorten_abbreviates _).2

/-- The alias of the join is a short form of what it is made of, and fits into an identifier. -/
def Join.Named (j : Join) : Prop :=
  ∃ link, Abbreviates (j.sourceAlias ++ "__" ++ link) j.tableAlias ∧ j.tableAlias.utf8ByteSize ≤ 63

theorem JoinCall.named (call : JoinCall) : call.join.Named :=
  have h := makeAlias_abbreviates call.source call.link
  ⟨call.link, h, h.le⟩

namespace Query

theorem mem_joinAll {q : Query} {calls : List JoinCall} {j : Join} (h : j ∈ (q.joinAll calls).joins) :
    j ∈ q.joins ∨ ∃ call ∈ calls, j = call.join := by
  induction calls generalizing q with
  | nil => exact .inl h
  | cons call calls ih =>
    rcases ih h with h | ⟨call', hcall', rfl⟩
    · rcases Compile.mem_addJoin h with h | rfl
      · exact .inl h
      · exact .inr ⟨call, List.mem_cons_self, rfl⟩
    · exact .inr ⟨call', List.mem_cons_of_mem _ hcall', rfl⟩

theorem named_of_mem_joinAll {q : Query} {calls : List JoinCall} {j : Join} (h : j ∈ (q.joinAll calls).joins) :
    j ∈ q.joins ∨ j.Named := by
  rcases mem_joinAll h with h | ⟨call, -, rfl⟩
  · exact .inl h
  · exact .inr call.named

end Query
end Sql

namespace Compile
variable {s : Setting} {build : QueryBuilder}

/-! ### The calls of a compilation -/

namespace Machine

theorem take_calls {q : Query} {rest : List Work} {results : List Cond} {p : Place} {step : Step}
    (h : step.Near s.registry p) : ∃ calls, (take q results rest step).query = q.joinAll calls := by
  cases step with
  | emit c => exact ⟨[], rfl⟩
  | requeue items => exact ⟨[], rfl⟩
  | follow join item =>
    obtain ⟨link, target, -, rfl, -⟩ := h
    exact ⟨[⟨p.tableAlias, link, target.table, "id", link⟩], rfl⟩

theorem step_calls {item : Work} {rest : List Work} {results : List Cond} {q : Query} {t t' : Trace} {next : Machine}
    (h : (step s build item rest results q).Gives t next t') : ∃ calls, next.query = q.joinAll calls := by
  rcases step_gives h with ⟨results', rfl⟩ | ⟨l, next', -, hreduce, rfl⟩
  · exact ⟨[], rfl⟩
  · exact take_calls (reduce_meets.gives hreduce).near

/-- What a compilation does to its query is a sequence of calls. -/
theorem Reaches.calls {m m' : Machine} (hreach : Reaches s build m m') :
    ∃ calls, m'.query = m.query.joinAll calls := by
  induction hreach with
  | refl m => exact ⟨[], rfl⟩
  | step hstep _ ih =>
    obtain ⟨first, hfirst⟩ := step_calls hstep
    obtain ⟨more, hmore⟩ := ih
    exact ⟨first ++ more, by rw [hmore, hfirst, Query.joinAll_append]⟩

end Machine

theorem compileOn_calls (s : Setting) (build : QueryBuilder) (fuel : Nat) (p : Place) (d : Domain) (q : Query)
    (t : Trace) : ∃ calls, ((Compiler.compileOn s build fuel p d q).run t).1.2 = q.joinAll calls := by
  unfold Compiler.compileOn
  cases Domain.distributeNot d with
  | error e => exact ⟨[], rfl⟩
  | ok e =>
    obtain ⟨m', hreach, hquery⟩ := Machine.reaches_query s build fuel (Machine.start p e q) t
    obtain ⟨calls, hcalls⟩ := hreach.calls
    exact ⟨calls, hquery.trans hcalls⟩

theorem compileWith_calls (s : Setting) (build : QueryBuilder) (fuel : Nat) (model : String) (d : Domain) (q : Query)
    (t : Trace) :
    ∃ calls, ((Compiler.compileWith s build fuel model d q).run t).1.2.joins = (q.joinAll calls).joins := by
  cases hm : s.registry.model model with
  | error e =>
    unfold Compiler.compileWith
    rw [hm]
    exact ⟨[], rfl⟩
  | ok m =>
    obtain ⟨calls, hcalls⟩ := compileOn_calls s build fuel ⟨m, q.tableAlias⟩ d q t
    refine ⟨calls, ?_⟩
    rw [compileWith_run s build hm, ← hcalls]
    rcases (Compiler.compileOn s build fuel ⟨m, q.tableAlias⟩ d q).run t with ⟨⟨stop | cond, q'⟩, t'⟩ <;> rfl

theorem queryIn_calls {c : Compiler} {fuel : Nat} {ctx : Context} {model : String} {d : Domain} {q : Query}
    {t t' : Trace} (h : (c.queryIn fuel ctx model d).Gives t q t') :
    ∃ table calls, q.joins = ((Query.ofTable table).joinAll calls).joins := by
  cases fuel with
  | zero => cases h
  | succ fuel =>
    obtain ⟨m, e, -, -, ⟨-, rfl⟩ | ⟨-, cond, q', t₁, hrun, rfl⟩⟩ := queryIn_gives h
    · exact ⟨m.table, [], rfl⟩
    · obtain ⟨calls, hcalls⟩ := compileOn_calls (c.setting ctx) (c.queryIn fuel) fuel ⟨m, m.table⟩ e (.ofTable m.table) t
      rw [hrun] at hcalls
      have hjoins : (q'.addCondition cond).joins = ((Query.ofTable m.table).joinAll calls).joins := by
        rw [← hcalls]
        rfl
      exact ⟨m.table, calls, hjoins⟩

/-- The alias that is made for a link is found byte by byte, and is a short form of the alias of its source with the
    link, of at most 63 bytes. So is the alias at the end of every chain, and the alias of every join that calls or
    compilations add to a query. -/
theorem aliases_fit :
    (∀ tableAlias link : String,
      shortenBytes? (tableAlias ++ "__" ++ link) = some (makeAlias tableAlias link) ∧
      Abbreviates (tableAlias ++ "__" ++ link) (makeAlias tableAlias link) ∧
      (makeAlias tableAlias link).utf8ByteSize ≤ 63) ∧
    (∀ (tableAlias : String) (links : List String) (link : String),
      Abbreviates (aliasAlong tableAlias links ++ "__" ++ link) (aliasAlong tableAlias (links ++ [link])) ∧
      (aliasAlong tableAlias (links ++ [link])).utf8ByteSize ≤ 63) ∧
    (∀ (q : Query) (calls : List JoinCall), ∀ j ∈ (q.joinAll calls).joins, j ∈ q.joins ∨ j.Named) ∧
    ∀ (c : Compiler) (fuel : Nat) (model : String) (d : Domain) (t : Trace),
      (∀ q : Query, ∀ j ∈ ((c.compile fuel model d q).run t).1.2.joins, j ∈ q.joins ∨ j.Named) ∧
      ∀ ctx q t', (c.queryIn fuel ctx model d).Gives t q t' → ∀ j ∈ q.joins, j.Named := by
  refine ⟨fun tableAlias link => ?_, fun tableAlias links link => ?_, fun q calls j => Query.named_of_mem_joinAll,
    fun c fuel model d t => ⟨fun q j hj => ?_, fun ctx q t' h j hj => ?_⟩⟩
  · obtain ⟨hbytes, hshort⟩ := shorten_abbreviates (tableAlias ++ "__" ++ link)
    exact ⟨hbytes, hshort, hshort.le⟩
  · rw [aliasAlong_snoc]
    have hshort := makeAlias_abbreviates (aliasAlong tableAlias links) link
    exact ⟨hshort, hshort.le⟩
  · obtain ⟨calls, hcalls⟩ := compileWith_calls (c.setting c.context) (c.queryIn fuel) fuel model d q t
    exact Query.named_of_mem_joinAll (hcalls ▸ hj)
  · obtain ⟨table, calls, hcalls⟩ := queryIn_calls h
    rcases Query.named_of_mem_joinAll (hcalls ▸ hj) with hnone | hnamed
    · cases hnone
    · exact hnamed

end Compile
end RecordFilter
