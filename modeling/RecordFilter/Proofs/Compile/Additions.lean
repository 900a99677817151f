import RecordFilter.Proofs.Compile.Aliases

/-! What a compilation adds to a query. The query is handed through the machine, but no leaf is decided by it: the
    aliases of joins are spelled from the relations that are followed, so the run is the same over every query, and
    so are the joins that it asks for. Of these a query takes the ones whose alias it does not have yet. A failed
    compilation has added joins too, those of the leaves that came before the failure. -/

namespace RecordFilter
open Sql

namespace Sql.Query

/-- The query with those of the joins that introduce an alias it does not have. -/
def addJoins (q : Query) (joins : List Join) : Query :=
  { q with joins := q.joins ++ joins.filter fun j => !q.hasAlias j.tableAlias }

theorem addJoins_nil (q : Query) : q.addJoins [] = q := by simp [addJoins]

theorem addJoin_eq_addJoins (q : Query) (j : Join) : q.addJoin j = q.addJoins [j] := by
  unfold addJoin addJoins
  cases h : q.hasAlias j.tableAlias <;> simp [h]

theorem hasAlias_addJoins (q : Query) (joins : List Join) (tableAlias : String) :
    (q.addJoins joins).hasAlias tableAlias = (q.hasAlias tableAlias || joins.any (·.tableAlias == tableAlias)) := by
  rw [Bool.eq_iff_iff, Bool.or_eq_true, hasAlias, addJoins, List.any_append, Bool.or_eq_true, ← hasAlias]
  constructor
  · refine Or.imp_right fun h => ?_
    obtain ⟨j, hj, heq⟩ := List.any_eq_true.mp h
    exact List.any_eq_true.mpr ⟨j, (List.mem_filter.mp hj).1, heq⟩
  · rintro (h | h)
    · exact Or.inl h
    · obtain ⟨j, hj, heq⟩ := List.any_eq_true.mp h
      rcases hq : q.hasAlias tableAlias
      · rw [← beq_iff_eq.mp heq] at hq
        exact Or.inr (List.any_eq_true.mpr ⟨j, List.mem_filter.mpr ⟨hj, by rw [hq]; rfl⟩, heq⟩)
      · exact Or.inl rfl

/-- Adding joins twice adds them all at once: the first ones, and of the others those with a new alias. -/
theorem addJoins_addJoins (q : Query) (joins more : List Join) :
    (q.addJoins joins).addJoins more =
      q.addJoins (joins ++ more.filter fun j => !joins.any (·.tableAlias == j.tableAlias)) := by
  have hnew : (fun j : Join => !(q.addJoins joins).hasAlias j.tableAlias) =
      fun j => !q.hasAlias j.tableAlias && !joins.any (·.tableAlias == j.tableAlias) :=
    funext fun j => by rw [hasAlias_addJoins, Bool.not_or]
  calc (q.addJoins joins).addJoins more
      = { q with joins := q.joins ++ (joins.filter fun j => !q.hasAlias j.tableAlias) ++
            more.filter fun j => !(q.addJoins joins).hasAlias j.tableAlias } := rfl
    _ = q.addJoins (joins ++ more.filter fun j => !joins.any (·.tableAlias == j.tableAlias)) := by
      rw [hnew, List.append_assoc, ← List.filter_filter, ← List.filter_append]
      rfl

/-- A query without joins takes them all. -/
theorem joins_addJoins_of_nil {q : Query} (hq : q.joins = []) (joins : List Join) : (q.addJoins joins).joins = joins := by
  simp [addJoins, hasAlias, hq]

/-- The condition of a query after one more has been added. -/
theorem condition_addCondition (q : Query) (c : Cond) :
    (q.addCondition c).condition = if q.conditions = [] then c else .conj q.condition c := by
  unfold condition addCondition
  cases q.conditions with
  | nil => rfl
  | cons first rest =>
    rw [if_neg nofun]
    exact List.foldl_append

/-- The second query is the first one with a condition more at the end, and with those of the joins at the end that
    introduce a new alias. -/
structure Appended (q q' : Query) (joins : List Join) (cond : Cond) : Prop where
  table : q'.table = q.table
  tableAlias : q'.tableAlias = q.tableAlias
  window : q'.window = q.window
  joins : q'.joins = q.joins ++ joins.filter fun j => !q.hasAlias j.tableAlias
  conditions : q'.conditions = q.conditions ++ [cond]
  sql : q'.condition.fragment.sql =
    (if q.conditions = [] then "" else q.condition.fragment.sql ++ " AND ") ++ cond.fragment.sql
  params : q'.condition.fragment.params = q.condition.fragment.params ++ cond.fragment.params

theorem appended (q : Query) (joins : List Join) (cond : Cond) :
    q.Appended ((q.addJoins joins).addCondition cond) joins cond := by
  have hcondition : ((q.addJoins joins).addCondition cond).condition =
      if q.conditions = [] then cond else .conj q.condition cond := condition_addCondition (q.addJoins joins) cond
  refine ⟨rfl, rfl, rfl, rfl, rfl, ?_, ?_⟩ <;> rw [hcondition] <;> split
  · exact (String.empty_append ..).symm
  · rfl
  · rename_i hnone
    have hempty : q.condition.fragment.params = [] := by
      rw [condition, hnone]
      rfl
    rw [hempty, List.nil_append]
  · simp only [Cond.fragment]
    show (_ ++ []) ++ _ = _
    rw [List.append_nil]

end Sql.Query

namespace Compile

variable {s : Setting} {build : QueryBuilder}

/-! ### Runs over any query -/

namespace Machine

/-- A step ends alike over every query, and asks for the same joins. -/
theorem step_adds (item : Work) (rest : List Work) (results : List Cond) (t : Trace) :
    (∃ stop t', ∀ q, (step s build item rest results q).run t = (.error stop, t')) ∨
      ∃ work results' joins t', ∀ q : Query,
        (step s build item rest results q).run t = (.ok ⟨work, results', q.addJoins joins⟩, t') := by
  -- A machine with the same query asks for no join.
  have same : ∀ work results', ∃ work' results'' joins t', ∀ q : Query,
      (pure ⟨work, results', q⟩ : Run Machine).run t = (.ok ⟨work', results'', q.addJoins joins⟩, t') :=
    fun work results' => ⟨work, results', [], t, fun q => by rw [Query.addJoins_nil]; rfl⟩
  unfold step
  split
  · exact Or.inr (same _ _)
  · exact Or.inr (same _ _)
  · exact Or.inr (same _ _)
  · exact Or.inr (same _ _)
  · exact Or.inr (same _ _)
  · rename_i waiting _ _ l _
    simp only [Run.run_bind]
    rcases (reduce s build l item.place).run t with ⟨stop | next, t'⟩
    · exact Or.inl ⟨stop, t', fun _ => rfl⟩
    · cases next with
      | emit c => exact Or.inr ⟨rest, c :: waiting, [], t', fun q => by rw [Query.addJoins_nil]; rfl⟩
      | requeue items => exact Or.inr ⟨items.reverse ++ rest, waiting, [], t', fun q => by rw [Query.addJoins_nil]; rfl⟩
      | follow join next =>
        exact Or.inr ⟨next :: rest, waiting, [join], t', fun q => by rw [← Query.addJoin_eq_addJoins]; rfl⟩
  · exact Or.inl ⟨_, t, fun _ => rfl⟩

/-- So does a run. -/
theorem outcome_adds (s : Setting) (build : QueryBuilder) (fuel : Nat) (work : List Work) (results : List Cond) (t : Trace) :
    ∃ r joins t', ∀ q : Query, outcome s build fuel ⟨work, results, q⟩ t = ((r, q.addJoins joins), t') := by
  induction fuel generalizing work results t with
  | zero =>
    cases work with
    | nil => exact ⟨result results, [], t, fun q => by rw [outcome_nil, Query.addJoins_nil]⟩
    | cons item rest => exact ⟨.error .unfinished, [], t, fun q => by rw [Query.addJoins_nil]; rfl⟩
  | succ fuel ih =>
    cases work with
    | nil => exact ⟨result results, [], t, fun q => by rw [outcome_nil, Query.addJoins_nil]⟩
    | cons item rest =>
      rcases step_adds item rest results t with ⟨stop, t', hstep⟩ | ⟨work, results', joins, t₁, hstep⟩
      · exact ⟨.error stop, [], t', fun q => by rw [outcome_succ, hstep, Query.addJoins_nil]⟩
      · obtain ⟨r, more, t', hrun⟩ := ih work results' t₁
        refine ⟨r, joins ++ more.filter fun j => !joins.any (·.tableAlias == j.tableAlias), t', fun q => ?_⟩
        rw [outcome_succ, hstep, ← Query.addJoins_addJoins]
        exact hrun _

/-- The query that a run ends with is that of a machine on its way, whether or not there is a condition. -/
theorem reaches_query (s : Setting) (build : QueryBuilder) (fuel : Nat) (m : Machine) (t : Trace) :
    ∃ m', Reaches s build m m' ∧ (outcome s build fuel m t).1.2 = m'.query := by
  induction fuel generalizing m t with
  | zero =>
    obtain ⟨work, results, q⟩ := m
    cases work <;> exact ⟨_, .refl _, rfl⟩
  | succ fuel ih =>
    obtain ⟨work, results, q⟩ := m
    cases work with
    | nil => exact ⟨_, .refl _, rfl⟩
    | cons item rest =>
      rw [outcome_succ]
      rcases hstep : (step s build item rest results q).run t with ⟨stop | next, t'⟩
      · exact ⟨_, .refl _, rfl⟩
      · obtain ⟨m', hreach, hquery⟩ := ih next t'
        exact ⟨m', .step hstep hreach, hquery⟩

end Machine

/-- Compiling a domain at a place ends alike over every query. The joins that it asks for lie at the ends of chains of
    relations from the place, and there are none if the negations of the domain cannot be distributed. -/
theorem compileOn_adds (s : Setting) (build : QueryBuilder) (fuel : Nat) (p : Place) (d : Domain) (t : Trace) :
    ∃ r joins t', (∀ q : Query, (Compiler.compileOn s build fuel p d q).run t = ((r, q.addJoins joins), t')) ∧
      (∀ j ∈ joins, ∃ links mid link target, Leads s.registry p.model links mid ∧
        Traverses s.registry mid link target ∧ j = joinAlong p.tableAlias links link target) ∧
      ∀ e, Domain.distributeNot d = .error e → joins = [] := by
  unfold Compiler.compileOn
  cases hd : Domain.distributeNot d with
  | error e => exact ⟨.error (.error e), [], t, fun q => by rw [Query.addJoins_nil]; rfl, nofun, fun _ _ => rfl⟩
  | ok e =>
    obtain ⟨r, joins, t', hrun⟩ := Machine.outcome_adds s build fuel (Work.ofDomain p e).reverse [] t
    refine ⟨r, joins, t', hrun, fun j hj => ?_, nofun⟩
    -- A query without joins ends with just the joins asked for.
    let machine := Machine.start p e (Query.ofTable p.model.table)
    obtain ⟨m', hreach, hquery⟩ := Machine.reaches_query s build fuel machine t
    have hquery : (Query.ofTable p.model.table).addJoins joins = m'.query := by
      rw [← hquery]
      exact (congrArg (·.1.2) (hrun _)).symm
    have hstart : machine.Chained s.registry p.model p.tableAlias := Machine.start_chained rfl e
    refine (hreach.chained hstart).joins j ?_
    rw [← hquery, Query.joins_addJoins_of_nil rfl]
    exact hj

/-! ### Requests -/

variable {c : Compiler} {fuel : Nat} {model : String} {d : Domain} {q q' : Query} {t t' : Trace}

/-- A compilation that fails leaves the query as it was but for joins at its end, each at the end of a chain of
    relations from the model. Over any other query with the same alias it fails alike, asking for the same joins. An
    unknown model or a domain whose negations cannot be distributed leaves the query unchanged. -/
theorem compile_failed {stop : Stop} (h : (c.compile fuel model d q).run t = ((.error stop, q'), t')) :
    ∃ joins, q' = q.addJoins joins ∧
      (∀ q₁ : Query, q₁.tableAlias = q.tableAlias →
        (c.compile fuel model d q₁).run t = ((.error stop, q₁.addJoins joins), t')) ∧
      (∀ j ∈ joins, ∃ m links mid link target, c.registry.model model = .ok m ∧ Leads c.registry m links mid ∧
        Traverses c.registry mid link target ∧ j = joinAlong q.tableAlias links link target) ∧
      ((∃ e, c.registry.model model = .error e) ∨ (∃ e, Domain.distributeNot d = .error e) → q' = q) := by
  rcases hm : c.registry.model model with e | m
  · have hunknown : ∀ q, (c.compile fuel model d q).run t = ((.error (.error e), q), t) := fun q => by
      unfold Compiler.compile Compiler.compileWith
      rw [show (c.setting c.context).registry.model model = .error e from hm]
      rfl
    rw [hunknown] at h
    cases h
    exact ⟨[], (q.addJoins_nil).symm, fun q₁ _ => by rw [hunknown, Query.addJoins_nil], nofun, fun _ => rfl⟩
  · obtain ⟨r, joins, t₁, hon, hchains, hnone⟩ :=
      compileOn_adds (c.setting c.context) (c.queryIn fuel) fuel ⟨m, q.tableAlias⟩ d t
    have hrun : ∀ q₁ : Query, q₁.tableAlias = q.tableAlias → _ := fun q₁ halias =>
      (compileWith_run (c.setting c.context) (c.queryIn fuel) hm fuel d q₁ t).trans (by rw [halias, hon q₁])
    have hq := (hrun q rfl).symm.trans h
    cases r with
    | ok cond => cases hq
    | error stop =>
      cases hq
      refine ⟨joins, rfl, hrun, fun j hj => ?_, ?_⟩
      · obtain ⟨links, mid, link, target, hleads, ht, rfl⟩ := hchains j hj
        exact ⟨m, links, mid, link, target, rfl, hleads, ht, rfl⟩
      · rintro (⟨e, he⟩ | ⟨e, he⟩)
        · cases he
        · rw [hnone e he, Query.addJoins_nil]

/-- Of the users that have a condition and a join already, those in a country and without a known name: the join to the
    country stays. -/
theorem compile_failed_users :
    let d : Domain := [.leaf ⟨"nickname", .eq, .value (.str "Bo")⟩, .leaf ⟨"country_id.code", .eq, .value (.str "NL")⟩]
    let q : Query := { Query.ofTable "user" with
      joins := [joinAlong "user" [] "partner_id" partnerModel], conditions := [.notNull ⟨"user", "id"⟩] }
    ∃ stop q' t', (userCompiler.compile 8 "user" d q).run {} = ((.error stop, q'), t') ∧
      q'.joins.map (·.tableAlias) = ["user__partner_id", "user__partner_id__country_id"] ∧
      ∃ joins, q' = q.addJoins joins ∧ ∀ j ∈ joins, ∃ m links mid link target,
        userCompiler.registry.model "user" = .ok m ∧ Leads userCompiler.registry m links mid ∧
        Traverses userCompiler.registry mid link target ∧ j = joinAlong "user" links link target := by
  intro d q
  have hstop : ∃ stop q' t', (userCompiler.compile 8 "user" d q).run {} = ((.error stop, q'), t') := ⟨_, _, _, rfl⟩
  have haliases : ((userCompiler.compile 8 "user" d q).run {}).1.2.joins.map (·.tableAlias) =
      ["user__partner_id", "user__partner_id__country_id"] := by decide +kernel
  obtain ⟨stop, q', t', h⟩ := hstop
  rw [h] at haliases
  obtain ⟨joins, hq', -, hchains, -⟩ := compile_failed h
  exact ⟨stop, q', t', h, haliases, joins, hq', hchains⟩

/-- The leaf on the right comes first and joins the lines of the orders; the field of the other one is unknown. -/
theorem failed_order_keeps_join :
    let d : Domain := [.leaf ⟨"nope", .eq, .value (.int 1)⟩, .leaf ⟨"line.item", .eq, .value (.int 5)⟩]
    let q := Query.ofTable "order"
    orderCompiler.registry.Valid ∧ ∃ leaf q' t',
      (orderCompiler.compile 8 "order" d q).run {} = ((.error (.error (.invalidField "order" "nope" leaf)), q'), t') ∧
        q'.joins = [joinAlong "order" [] "line" lineModel] ∧ q' ≠ q := by
  intro d q
  have hstop : ∃ leaf q' t', (orderCompiler.compile 8 "order" d q).run {} =
      ((.error (.error (.invalidField "order" "nope" leaf)), q'), t') := ⟨_, _, _, rfl⟩
  have hjoins : ((orderCompiler.compile 8 "order" d q).run {}).1.2.joins = [joinAlong "order" [] "line" lineModel] := by
    decide +kernel
  obtain ⟨leaf, q', t', h⟩ := hstop
  rw [h] at hjoins
  refine ⟨valid_orders, leaf, q', t', h, hjoins, fun heq => ?_⟩
  rw [heq] at hjoins
  cases hjoins

/-- A compilation that succeeds appends a condition, and joins for it. Over any other query with the same alias it
    succeeds too, with the same calls of the database, the same condition and the same joins. -/
theorem compile_appends (h : (c.compile fuel model d q).run t = ((.ok (), q'), t')) :
    ∃ joins cond, q.Appended q' joins cond ∧
      ∀ q₁ : Query, q₁.tableAlias = q.tableAlias →
        ∃ q₁' t₁, (c.compile fuel model d q₁).run t = ((.ok (), q₁'), t₁) ∧ q₁.Appended q₁' joins cond ∧
          t₁.calls = t'.calls := by
  obtain ⟨m, cond, q₂, t₂, hm, hon, rfl, hcalls⟩ := compile_gives h
  obtain ⟨r, joins, t₁, hadds, -, -⟩ :=
    compileOn_adds (c.setting c.context) (c.queryIn fuel) fuel ⟨m, q.tableAlias⟩ d t
  cases (hadds q).symm.trans hon
  refine ⟨joins, cond, q.appended joins cond, fun q₁ halias => ?_⟩
  have hwith := compileWith_run (c.setting c.context) (c.queryIn fuel) hm fuel d q₁ t
  rw [halias, hadds q₁] at hwith
  exact ⟨_, _, hwith, q₁.appended joins cond, hcalls.symm⟩

/-- The users in a country, in a query that joins the partner already and has a condition and an order: one join more, and
    one condition more. -/
theorem compile_appends_users :
    let d : Domain := [.leaf ⟨"country_id.code", .eq, .value (.str "NL")⟩]
    let q : Query := { Query.ofTable "user" with
      joins := [joinAlong "user" [] "partner_id" partnerModel], conditions := [.notNull ⟨"user", "id"⟩]
      window := { order := some "id" } }
    ∃ q' t', (userCompiler.compile 8 "user" d q).run {} = ((.ok (), q'), t') ∧
      q'.joins.map (·.tableAlias) = ["user__partner_id", "user__partner_id__country_id"] ∧
      ∃ joins cond, q.Appended q' joins cond ∧
        ∃ q₁' t₁, (userCompiler.compile 8 "user" d (.ofTable "user")).run {} = ((.ok (), q₁'), t₁) ∧
          (Query.ofTable "user").Appended q₁' joins cond ∧ t₁.calls = t'.calls := by
  intro d q
  have hok : ∃ q' t', (userCompiler.compile 8 "user" d q).run {} = ((.ok (), q'), t') := ⟨_, _, rfl⟩
  have haliases : ((userCompiler.compile 8 "user" d q).run {}).1.2.joins.map (·.tableAlias) =
      ["user__partner_id", "user__partner_id__country_id"] := by decide +kernel
  obtain ⟨q', t', h⟩ := hok
  rw [h] at haliases
  obtain ⟨joins, cond, hq', hother⟩ := compile_appends h
  exact ⟨q', t', h, haliases, joins, cond, hq', hother (.ofTable "user") rfl⟩

end Compile
end RecordFilter
