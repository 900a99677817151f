import RecordFilter.Proofs.Compile.Additions
import RecordFilter.Proofs.Compile.Settling

/-! The joins of a query in the order in which they are made. A call adds one join, unless one with its alias is
    there, and no call takes a join away again. A compilation reads every leaf under the alias of the query's own
    table or of a join that was made before, so that the FROM clause introduces every alias before it is used. -/

namespace RecordFilter
open Sql

namespace Sql

/-- A call that joins a table. -/
structure JoinCall where
  source : String
  column : String
  table : String
  targetColumn : String
  link : String

/-- The join that a call asks for. The call gives its alias back, whether or not the join was there. -/
def JoinCall.join (call : JoinCall) : Join :=
  Query.joinThrough call.source call.column call.table call.targetColumn call.link

namespace Query
variable {q q' : Query} {j : Join}

/-! ### Single joins -/

/-- The alias is that of the query's own table or of a join. -/
def Introduces (q : Query) (tableAlias : String) : Prop := tableAlias ∈ q.tableAlias :: q.joins.map (·.tableAlias)

/-- No alias is introduced twice by a join, and each join starts from the query's own table or from a table that is
    joined before it. -/
structure Ordered (q : Query) : Prop where
  distinct : (q.joins.map (·.tableAlias)).Nodup
  sources : ∀ earlier j later, q.joins = earlier ++ j :: later →
    j.sourceAlias ∈ q.tableAlias :: earlier.map (·.tableAlias)

theorem hasAlias_iff {tableAlias : String} : q.hasAlias tableAlias ↔ tableAlias ∈ q.joins.map (·.tableAlias) := by
  simp [hasAlias]

theorem Extends.hasAlias (h : q.Extends q') {tableAlias : String} (hq : q.hasAlias tableAlias) :
    q'.hasAlias tableAlias :=
  hasAlias_iff.mpr ((h.joins.map _).subset (hasAlias_iff.mp hq))

theorem Extends.introduces (h : q.Extends q') {tableAlias : String} (hq : q.Introduces tableAlias) :
    q'.Introduces tableAlias := by
  unfold Introduces at hq ⊢
  rw [h.tableAlias]
  exact (List.mem_cons.mp hq).elim (· ▸ List.mem_cons_self) fun hq =>
    List.mem_cons_of_mem _ ((h.joins.map _).subset hq)

theorem addJoin_of_hasAlias (h : q.hasAlias j.tableAlias) : q.addJoin j = q := if_pos h

theorem joins_addJoin_of_not (h : ¬q.hasAlias j.tableAlias) : (q.addJoin j).joins = q.joins ++ [j] := by
  rw [addJoin, if_neg h]

theorem distinct_addJoin (h : (q.joins.map (·.tableAlias)).Nodup) (j : Join) :
    ((q.addJoin j).joins.map (·.tableAlias)).Nodup := by
  by_cases hj : q.hasAlias j.tableAlias
  · rwa [addJoin_of_hasAlias hj]
  · rw [joins_addJoin_of_not hj, List.map_append]
    refine List.nodup_append.mpr ⟨h, by simp, fun a ha b hb hab => hj (hasAlias_iff.mpr ?_)⟩
    obtain rfl : b = j.tableAlias := List.mem_singleton.mp hb
    exact hab ▸ ha

theorem Ordered.addJoin (h : q.Ordered) (hj : q.Introduces j.sourceAlias) : (q.addJoin j).Ordered := by
  refine ⟨distinct_addJoin h.distinct j, fun earlier i later hi => ?_⟩
  rw [(Extends.addJoin q j).tableAlias]
  by_cases hold : q.hasAlias j.tableAlias
  · rw [addJoin_of_hasAlias hold] at hi
    exact h.sources _ _ _ hi
  · rw [joins_addJoin_of_not hold] at hi
    -- The join `i` is the new one, or one of those that were there.
    rcases List.eq_nil_or_concat later with rfl | ⟨later, last, rfl⟩
    · obtain ⟨rfl, hlast⟩ := List.append_inj' hi rfl
      cases hlast
      exact hj
    · rw [List.concat_eq_append, ← List.cons_append, ← List.append_assoc] at hi
      exact h.sources _ _ _ (List.append_inj' hi rfl).1

theorem ordered_of_nil (h : q.joins = []) : q.Ordered where
  distinct := by simp [h]
  sources earlier i later hi := by simp [h] at hi

/-! ### Sequences of calls -/

/-- The query after some calls, one after the other. -/
def joinAll (q : Query) (calls : List JoinCall) : Query := calls.foldl (fun q call => q.addJoin call.join) q

theorem joinAll_append (q : Query) (calls more : List JoinCall) :
    q.joinAll (calls ++ more) = (q.joinAll calls).joinAll more := List.foldl_append

theorem joinAll_extends (q : Query) (calls : List JoinCall) : q.Extends (q.joinAll calls) := by
  induction calls generalizing q with
  | nil => exact .refl q
  | cons call calls ih => exact (Extends.addJoin q call.join).trans (ih _)

theorem distinct_joinAll (h : (q.joins.map (·.tableAlias)).Nodup) (calls : List JoinCall) :
    ((q.joinAll calls).joins.map (·.tableAlias)).Nodup := by
  induction calls generalizing q with
  | nil => exact h
  | cons call calls ih => exact ih (distinct_addJoin h call.join)

/-- What one call does in a sequence: `before` is the query that it is made on, `after` the one that it leaves and
    `last` the one at the end of the sequence. -/
structure Records (call : JoinCall) (before after last : Query) : Prop where
  added : after = before ∨
    ¬before.hasAlias call.join.tableAlias ∧ after = { before with joins := before.joins ++ [call.join] }
  kept : after.Extends last
  recorded : after.hasAlias call.join.tableAlias
  /-- A call with the same source and link gives the same alias back and changes nothing, there and at the end. -/
  repeated : ∀ again : JoinCall, again.source = call.source → again.link = call.link →
    again.join.tableAlias = call.join.tableAlias ∧ after.addJoin again.join = after ∧ last.addJoin again.join = last

theorem joinAll_records (q : Query) (before : List JoinCall) (call : JoinCall) (after : List JoinCall) :
    Records call (q.joinAll before) (q.joinAll (before ++ [call])) (q.joinAll (before ++ call :: after)) := by
  have hcall : q.joinAll (before ++ [call]) = (q.joinAll before).addJoin call.join := joinAll_append q before [call]
  have hkept : (q.joinAll (before ++ [call])).Extends (q.joinAll (before ++ call :: after)) := by
    rw [show before ++ call :: after = before ++ [call] ++ after by simp, joinAll_append q (before ++ [call])]
    exact joinAll_extends _ after
  have hrecorded : (q.joinAll (before ++ [call])).hasAlias call.join.tableAlias := hcall ▸ Compile.hasAlias_addJoin _ _
  refine ⟨?_, hkept, hrecorded, fun again hsource hlink => ?_⟩
  · rw [hcall]
    unfold addJoin
    split
    · exact .inl rfl
    · exact .inr ⟨‹_›, rfl⟩
  · have halias : again.join.tableAlias = call.join.tableAlias := by
      show makeAlias again.source again.link = makeAlias call.source call.link
      rw [hsource, hlink]
    exact ⟨halias, addJoin_of_hasAlias (halias ▸ hrecorded), addJoin_of_hasAlias (halias ▸ hkept.hasAlias hrecorded)⟩

end Query
end Sql

namespace Compile

variable {s : Setting} {build : QueryBuilder}

/-! ### Compilations -/

namespace Machine

/-- All that waits is read under aliases of the query, and the joins of the query are in order. -/
structure Ordered (m : Machine) : Prop where
  work : ∀ w ∈ m.work, m.query.Introduces w.place.tableAlias
  query : m.query.Ordered

theorem start_ordered {p : Place} {q : Query} (hp : q.Introduces p.tableAlias) (hq : q.Ordered) (d : Domain) :
    (start p d q).Ordered := by
  refine ⟨fun w hw => ?_, hq⟩
  obtain ⟨token, -, rfl⟩ := List.mem_map.mp (List.mem_reverse.mp hw)
  exact hp

theorem take_ordered {q : Query} {rest : List Work} {results : List Cond} {p : Place} {step : Step}
    (hp : q.Introduces p.tableAlias) (hrest : ∀ w ∈ rest, q.Introduces w.place.tableAlias) (hq : q.Ordered)
    (h : step.Near s.registry p) : (take q results rest step).Ordered := by
  cases step with
  | emit c => exact ⟨hrest, hq⟩
  | requeue items =>
    refine ⟨fun w hw => ?_, hq⟩
    rcases List.mem_append.mp hw with hw | hw
    · exact h w (List.mem_reverse.mp hw) ▸ hp
    · exact hrest w hw
  | follow join item =>
    obtain ⟨link, target, -, rfl, hplace⟩ := h
    refine ⟨fun w hw => ?_, hq.addJoin hp⟩
    rcases List.mem_cons.mp hw with rfl | hw
    · rw [hplace]
      exact List.mem_cons_of_mem _ (Query.hasAlias_iff.mp (hasAlias_addJoin q _))
    · exact (Query.Extends.addJoin q _).introduces (hrest w hw)

/-- A step works on what waits, and on the query by way of a leaf only. -/
theorem step_gives {item : Work} {rest : List Work} {results : List Cond} {q : Query} {t t' : Trace} {next : Machine}
    (h : (step s build item rest results q).Gives t next t') :
    (∃ results', next = ⟨rest, results', q⟩) ∨ ∃ l next', item.token = .leaf l ∧
      (reduce s build l item.place).Gives t next' t' ∧ next = take q results rest next' := by
  unfold step at h
  split at h
  · cases h
    exact .inl ⟨_, rfl⟩
  · cases h
    exact .inl ⟨_, rfl⟩
  · cases h
    exact .inl ⟨_, rfl⟩
  · cases h
    exact .inl ⟨_, rfl⟩
  · cases h
    exact .inl ⟨_, rfl⟩
  · rename_i l htoken
    obtain ⟨next', t₁, hreduce, hpure⟩ := Run.gives_bind.mp h
    cases hpure
    exact .inr ⟨l, next', htoken, hreduce, rfl⟩
  · cases h

theorem step_ordered {item : Work} {rest : List Work} {results : List Cond} {q : Query}
    (h : Ordered ⟨item :: rest, results, q⟩) {t t' : Trace} {next : Machine}
    (hstep : (step s build item rest results q).Gives t next t') : next.Ordered := by
  have hrest : ∀ w ∈ rest, q.Introduces w.place.tableAlias := fun w hw => h.work w (List.mem_cons_of_mem _ hw)
  rcases step_gives hstep with ⟨results', rfl⟩ | ⟨l, next', -, hreduce, rfl⟩
  · exact ⟨hrest, h.query⟩
  · exact take_ordered (h.work item List.mem_cons_self) hrest h.query (reduce_meets.gives hreduce).near

theorem Reaches.ordered {m m' : Machine} (hreach : Reaches s build m m') (h : m.Ordered) : m'.Ordered := by
  induction hreach with
  | refl m => exact h
  | step hstep _ ih => exact ih (step_ordered h hstep)

end Machine

theorem compileOn_ordered (s : Setting) (build : QueryBuilder) (fuel : Nat) {p : Place} {q : Query}
    (hp : q.Introduces p.tableAlias) (hq : q.Ordered) (d : Domain) (t : Trace) :
    ((Compiler.compileOn s build fuel p d q).run t).1.2.Ordered := by
  unfold Compiler.compileOn
  cases Domain.distributeNot d with
  | error e => exact hq
  | ok e =>
    obtain ⟨m', hreach, hquery⟩ := Machine.reaches_query s build fuel (Machine.start p e q) t
    exact hquery ▸ (hreach.ordered (Machine.start_ordered hp hq e)).query

theorem compileWith_ordered (fuel : Nat) (model : String) (d : Domain) {q : Query} (hq : q.Ordered) (t : Trace) :
    ((Compiler.compileWith s build fuel model d q).run t).1.2.Ordered := by
  cases hm : s.registry.model model with
  | error e =>
    unfold Compiler.compileWith
    rw [hm]
    exact hq
  | ok m =>
    rw [compileWith_run s build hm]
    have hon := compileOn_ordered s build fuel (p := ⟨m, q.tableAlias⟩) List.mem_cons_self hq d t
    rcases hrun : (Compiler.compileOn s build fuel ⟨m, q.tableAlias⟩ d q).run t with ⟨⟨stop | cond, q'⟩, t'⟩ <;>
      rw [hrun] at hon
    · exact hon
    · exact ⟨hon.distinct, hon.sources⟩

theorem queryIn_ordered {c : Compiler} {fuel : Nat} {ctx : Context} {model : String} {d : Domain} {q : Query}
    {t t' : Trace} (h : (c.queryIn fuel ctx model d).Gives t q t') : q.Ordered := by
  cases fuel with
  | zero => cases h
  | succ fuel =>
    have hfresh : ∀ m : Model, (Query.ofTable m.table).Ordered := fun m => Query.ordered_of_nil rfl
    obtain ⟨m, e, -, -, ⟨-, rfl⟩ | ⟨-, cond, q', t₁, hrun, rfl⟩⟩ := queryIn_gives h
    · exact hfresh m
    · have hon := compileOn_ordered (c.setting ctx) (c.queryIn fuel) fuel (p := ⟨m, m.table⟩)
        List.mem_cons_self (hfresh m) e t
      rw [hrun] at hon
      exact ⟨hon.distinct, hon.sources⟩

/-- In a query without joins, any sequence of calls introduces every alias once: each call records its alias, by one
    join at most, and leaves the joins that are there as they are; made again it changes nothing. After a compilation
    into the query, whether or not it succeeds, and in every query that a compiler builds, each join starts from the
    query's own table or from a table that is joined before. -/
theorem joins_in_order {q : Query} (hq : q.joins = []) :
    (∀ calls : List JoinCall, q.Extends (q.joinAll calls) ∧ ((q.joinAll calls).joins.map (·.tableAlias)).Nodup ∧
      ∀ before call after, calls = before ++ call :: after →
        Query.Records call (q.joinAll before) (q.joinAll (before ++ [call])) (q.joinAll calls)) ∧
      ∀ (c : Compiler) (fuel : Nat) (model : String) (d : Domain) (t : Trace),
        ((c.compile fuel model d q).run t).1.2.Ordered ∧
          ∀ ctx q' t', (c.queryIn fuel ctx model d).Gives t q' t' → q'.Ordered := by
  refine ⟨fun calls => ⟨Query.joinAll_extends q calls, Query.distinct_joinAll (by simp [hq]) calls, ?_⟩, ?_⟩
  · rintro before call after rfl
    exact Query.joinAll_records q before call after
  · intro c fuel model d t
    exact ⟨compileWith_ordered fuel model d (Query.ordered_of_nil hq) t, fun ctx q' t' h => queryIn_ordered h⟩

/-- The users in a country: the partner is joined to the user and the country to the partner, and so by three calls of
    which one is made twice. -/
theorem joins_in_order_users :
    let q := Query.ofTable "user"
    let partner : JoinCall := ⟨"user", "partner_id", "partner", "id", "partner_id"⟩
    let country : JoinCall := ⟨"user__partner_id", "country_id", "country", "id", "country_id"⟩
    let d : Domain := [.leaf ⟨"country_id.code", .eq, .value (.str "NL")⟩]
    q.joins = [] ∧ (q.joinAll [partner, country, partner]).joins = [partner.join, country.join] ∧
      Query.Records partner (q.joinAll []) (q.joinAll [partner]) (q.joinAll [partner, country, partner]) ∧
      ((userCompiler.compile 8 "user" d q).run {}).1.2.joins = [partner.join, country.join] ∧
      ((userCompiler.compile 8 "user" d q).run {}).1.2.Ordered := by
  intro q partner country d
  obtain ⟨hcalls, hcompile⟩ := joins_in_order (q := q) rfl
  exact ⟨rfl, by decide +kernel, (hcalls [partner, country, partner]).2.2 [] partner [country, partner] rfl,
    by decide +kernel, (hcompile userCompiler 8 "user" d {}).1⟩

end Compile
end RecordFilter
