import RecordFilter.Proofs.Compile.AlikeLeaves

/-! Domains that differ at most in what their strings say have queries that differ at most in the values that
    are bound: what a string says never gets into the SQL. The machine of the second domain follows that of the
    first one, but for dates, which take a step more than other texts. -/

namespace RecordFilter.Compile
open Sql

variable {s : Setting} {build build' : QueryBuilder}

/-- A leaf on a time: a date is widened, and what is no date has its condition. -/
theorem reduce_datetime {l : Leaf} {p : Place} (hop : l.op ≠ .eqIfSet)
    (hk : classify s.registry p.model l = .ok .datetime) :
    reduce s build l p = match widenDate? l with
      | some widened => pure (Step.leaf widened p)
      | none => emitLeaf s l p := by
  unfold reduce
  rw [if_neg hop, hk]
  rfl

/-! ### Machines -/

namespace Machine

/-- Two machines that differ at most in what strings say and in the values that are bound. -/
structure Alike (m m' : Machine) : Prop where
  work : List.Forall₂ Work.Alike m.work m'.work
  results : List.Forall₂ CondAlike m.results m'.results
  query : QueryAlike m.query m'.query

/-- The machine gets from `m'` to one that is like `m` in two steps at most. -/
def Follows (s : Setting) (build : QueryBuilder) (m m' : Machine) : Prop :=
  ∃ k ≤ 2, ∃ next, m.Alike next ∧ Moves s build k m' next

variable {rest rest' : List Work} {results results' : List Cond} {q q' : Query}

theorem take_alike (hrest : List.Forall₂ Work.Alike rest rest') (hresults : List.Forall₂ CondAlike results results')
    (hq : QueryAlike q q') {next next' : Step} (h : next.Alike next') :
    (take q results rest next).Alike (take q' results' rest' next') := by
  cases h with
  | emit hc => exact ⟨hrest, .cons hc hresults, hq⟩
  | requeue hitems => exact ⟨List.rel_append (List.rel_reverse hitems) hrest, hresults, hq⟩
  | follow join hitem => exact ⟨.cons hitem hrest, hresults, hq.addJoin join⟩

/-- A leaf in the first machine. -/
theorem leaf_follows (hs : s.Offline) (hbuild : BuildsAlike build build')
    (hrest : List.Forall₂ Work.Alike rest rest') (hresults : List.Forall₂ CondAlike results results')
    (hq : QueryAlike q q') {l l' : Leaf} (hl : l.Alike l') {p : Place} {t t' : Trace} {next : Step}
    (h : (reduce s build l p).Gives t next t') :
    Follows s build' (take q results rest next) ⟨⟨.leaf l', p⟩ :: rest', results', q'⟩ := by
  -- A leaf that becomes something alike takes one step.
  have emitted : ∀ {l₁ : Leaf}, Run.Carries Step.Alike (reduce s build l p) (reduce s build' l₁ p) →
      ∃ next', (take q results rest next).Alike next' ∧ Moves s build' 1 ⟨⟨.leaf l₁, p⟩ :: rest', results', q'⟩ next' :=
    fun hcarries => by
      obtain ⟨next', hyields, halike⟩ := hcarries t next t' h
      exact ⟨_, take_alike hrest hresults hq halike, moves_leaf hyields rest' results' q'⟩
  by_cases htime : l.op ≠ .eqIfSet → classify s.registry p.model l ≠ .ok .datetime
  · exact ⟨1, by omega, emitted (reduce_alike hs hbuild hl htime)⟩
  -- On a time only a date is widened first; the machine that has none waits, or goes ahead.
  obtain ⟨hop, hk⟩ : l.op ≠ .eqIfSet ∧ classify s.registry p.model l = .ok .datetime := by simpa using htime
  have datetime : ∀ {l₁ : Leaf} (b : QueryBuilder), l.Alike l₁ → reduce s b l₁ p = match widenDate? l₁ with
      | some widened => pure (Step.leaf widened p)
      | none => emitLeaf s l₁ p := fun b hl₁ => by
    obtain ⟨kind, hk₁, rfl⟩ := classify_alike s.registry p.model hl₁ _ hk
    exact reduce_datetime (hl₁.op ▸ hop) hk₁
  have hreduce := datetime build (.refl l)
  have hreduce' := datetime build' hl
  cases hw : widenDate? l with
  | some w =>
    rw [hw] at hreduce
    have hwl : w.Alike l' := (widened_alike hl.symm hw).symm
    cases hw' : widenDate? l' with
    | some w' =>
      rw [hw'] at hreduce'
      refine ⟨1, by omega, emitted ?_⟩
      rw [hreduce, hreduce']
      exact .pure (Step.alike_leaf (widened_alike hwl hw') p)
    | none =>
      rw [hreduce] at h
      cases h
      have hwaits : List.Forall₂ Work.Alike (⟨.leaf w, p⟩ :: rest) (⟨.leaf l', p⟩ :: rest') :=
        .cons ⟨.leaf hwl, rfl⟩ hrest
      exact ⟨0, by omega, ⟨_, results', q'⟩, ⟨hwaits, hresults, hq⟩, .refl _⟩
  | none =>
    rw [hw] at hreduce
    cases hw' : widenDate? l' with
    | some w' =>
      rw [hw'] at hreduce'
      have hlw : l.Alike w' := widened_alike hl hw'
      have hwide := datetime build' hlw
      rw [widenDate?_widened hw'] at hwide
      obtain ⟨next', halike, hmoves⟩ := emitted (by
        rw [hreduce, hwide]
        exact emitLeaf_alike hlw)
      have hyields : (reduce s build' l' p).Yields (Step.leaf w' p) := hreduce' ▸ .pure _
      exact ⟨2, by omega, next', halike, (moves_leaf hyields rest' results' q').trans hmoves⟩
    | none =>
      rw [hw'] at hreduce'
      refine ⟨1, by omega, emitted ?_⟩
      rw [hreduce, hreduce']
      exact emitLeaf_alike hl

theorem operator_follows {token : Token} (hleaf : token.leaf? = none) {p : Place}
    (hrest : List.Forall₂ Work.Alike rest rest') (hresults : List.Forall₂ CondAlike results results')
    (hq : QueryAlike q q') {t t' : Trace} {next : Machine}
    (h : (step s build ⟨token, p⟩ rest results q).Gives t next t') :
    Follows s build' next ⟨⟨token, p⟩ :: rest', results', q'⟩ := by
  suffices hcarries : Run.Carries Alike (step s build ⟨token, p⟩ rest results q)
      (step s build' ⟨token, p⟩ rest' results' q') by
    obtain ⟨next', hyields, halike⟩ := hcarries t next t' h
    exact ⟨1, by omega, next', halike, moves_step hyields⟩
  cases token with
  | leaf l => cases hleaf
  | true =>
    unfold step
    exact .pure ⟨hrest, .cons (.refl _) hresults, hq⟩
  | false =>
    unfold step
    exact .pure ⟨hrest, .cons (.refl _) hresults, hq⟩
  | not =>
    cases hresults with
    | nil => exact .fail
    | cons ha hrest' => exact .pure ⟨hrest, .cons ha.not hrest', hq⟩
  | and =>
    cases hresults with
    | nil => exact .fail
    | cons ha hresults =>
      cases hresults with
      | nil => exact .fail
      | cons hb hresults => exact .pure ⟨hrest, .cons (.and ha hb) hresults, hq⟩
  | or =>
    cases hresults with
    | nil => exact .fail
    | cons ha hresults =>
      cases hresults with
      | nil => exact .fail
      | cons hb hresults => exact .pure ⟨hrest, .cons (.or ha hb) hresults, hq⟩

/-- One step of the first machine: the second one gets to where it is. -/
theorem step_follows (hs : s.Offline) (hbuild : BuildsAlike build build') {item item' : Work}
    (hitem : item.Alike item') (hrest : List.Forall₂ Work.Alike rest rest')
    (hresults : List.Forall₂ CondAlike results results') (hq : QueryAlike q q') {t t' : Trace} {next : Machine}
    (h : (step s build item rest results q).Gives t next t') :
    Follows s build' next ⟨item' :: rest', results', q'⟩ := by
  obtain ⟨token, place⟩ := item
  obtain ⟨token', p⟩ := item'
  obtain ⟨htoken, rfl⟩ := hitem
  -- A leaf becomes a step, which the machine takes.
  have taken : ∀ {l l' : Leaf}, l.Alike l' → (step s build ⟨.leaf l, p⟩ rest results q).Gives t next t' →
      Follows s build' next ⟨⟨.leaf l', p⟩ :: rest', results', q'⟩ := fun hl h => by
    unfold step at h
    obtain ⟨next, t₁, hreduce, hpure⟩ := Run.gives_bind.mp h
    cases hpure
    exact leaf_follows hs hbuild hrest hresults hq hl hreduce
  cases htoken with
  | leaf hl => exact taken hl h
  | refl =>
    cases hleaf : token.leaf? with
    | none => exact operator_follows hleaf hrest hresults hq h
    | some l =>
      obtain rfl : token = .leaf l := by cases token <;> cases hleaf; rfl
      exact taken (.refl l) h

/-- What the first machine arrives at the second one arrives at, with twice the fuel. -/
theorem outcome_alike (hs : s.Offline) (hbuild : BuildsAlike build build') {fuel fuel' : Nat} (hfuel : 2 * fuel ≤ fuel')
    {m m' : Machine} (hm : m.Alike m') {t t' : Trace} {c : Cond} {qe : Query}
    (h : outcome s build fuel m t = ((.ok c, qe), t')) :
    ∃ c' qe', CondAlike c c' ∧ QueryAlike qe qe' ∧
      ∀ tr, ∃ tr', outcome s build' fuel' m' tr = ((.ok c', qe'), tr') := by
  -- With nothing left to do both are done.
  have done : ∀ {fuel results q t m'} (fuel'), Alike ⟨[], results, q⟩ m' →
      outcome s build fuel ⟨[], results, q⟩ t = ((.ok c, qe), t') →
      ∃ c' qe', CondAlike c c' ∧ QueryAlike qe qe' ∧
        ∀ tr, ∃ tr', outcome s build' fuel' m' tr = ((.ok c', qe'), tr') := by
    intro fuel results q t m' fuel' hm h
    obtain ⟨work', results', q'⟩ := m'
    obtain ⟨hwork, hresults, hq⟩ := hm
    cases hwork
    rw [outcome_nil] at h
    obtain ⟨⟨hresult, rfl⟩, -⟩ : (result results = .ok c ∧ q = qe) ∧ t = t' := by simpa using h
    unfold result at hresult
    split at hresult <;> cases hresult
    cases hresults with
    | cons hc hnil =>
      cases hnil
      exact ⟨_, q', hc, hq, fun tr => ⟨tr, outcome_nil fuel' _ q' tr⟩⟩
  induction fuel generalizing m m' t fuel' with
  | zero =>
    obtain ⟨_ | ⟨item, rest⟩, results, q⟩ := m
    · exact done fuel' hm h
    · cases h
  | succ fuel ih =>
    obtain ⟨_ | ⟨item, rest⟩, results, q⟩ := m
    · exact done fuel' hm h
    · obtain ⟨work', results', q'⟩ := m'
      obtain ⟨hwork, hresults, hq⟩ := hm
      cases hwork with
      | cons hitem hrest =>
        rw [outcome_succ] at h
        rcases hstep : (step s build item rest results q).run t with ⟨e | next, t₁⟩ <;> rw [hstep] at h
        · cases h
        · obtain ⟨k, hk, next', halike, hmoves⟩ := step_follows hs hbuild hitem hrest hresults hq hstep
          obtain ⟨left, rfl⟩ := Nat.exists_eq_add_of_le' (show k ≤ fuel' by omega)
          have hleft : 2 * fuel ≤ left := by omega
          obtain ⟨c', qe', hc, hqe, houtcome⟩ := ih hleft halike h
          refine ⟨c', qe', hc, hqe, fun tr => ?_⟩
          obtain ⟨tr₁, h₁⟩ := hmoves left tr
          obtain ⟨tr₂, h₂⟩ := houtcome tr₁
          exact ⟨tr₂, h₁.trans h₂⟩

end Machine

/-! ### Compilations -/

theorem compileOn_alike (hs : s.Offline) (hbuild : BuildsAlike build build') {fuel fuel' : Nat}
    (hfuel : 2 * fuel ≤ fuel') (p : Place) {d d' : Domain} (hd : d.Alike d') {q q' : Query} (hq : QueryAlike q q')
    {t t' : Trace} {c : Cond} {qe : Query} (h : (Compiler.compileOn s build fuel p d q).run t = ((.ok c, qe), t')) :
    ∃ c' qe', CondAlike c c' ∧ QueryAlike qe qe' ∧
      ∀ tr, ∃ tr', (Compiler.compileOn s build' fuel' p d' q').run tr = ((.ok c', qe'), tr') := by
  unfold Compiler.compileOn at h ⊢
  split at h
  · cases h
  · rename_i e he
    obtain ⟨e', he', hee⟩ := hd.distributeNot e he
    rw [he']
    exact Machine.outcome_alike hs hbuild hfuel ⟨List.rel_reverse (Work.alike_ofDomain p hee), .nil, hq⟩ h

theorem withActive_alike (r : Registry) (ctx : Context) (m : Model) {d d' : Domain} (hd : d.Alike d') :
    Carries Domain.Alike (withActive r ctx m d) (withActive r ctx m d') := by
  unfold withActive
  split
  · split
    · exact .ok hd
    · rename_i active _
      rw [hd.any_left active]
      split
      · exact .ok hd
      · exact Domain.allOf_alike (.cons (.refl _) (.cons hd .nil))
  · exact .ok hd

theorem queryIn_alike (c : Compiler) (hbackend : c.backend = .offline) (hhooks : ∀ name, c.registry.hook? name = none)
    {fuel fuel' : Nat} (hfuel : 2 * fuel ≤ fuel') : BuildsAlike (c.queryIn fuel) (c.queryIn fuel') := by
  induction fuel generalizing fuel' with
  | zero =>
    intro ctx model d d' _ t q t' h
    cases h
  | succ fuel ih =>
    -- The queries nested in this one have one unit less, and so twice as many are left for the other ones.
    obtain ⟨fuel', rfl⟩ : ∃ k, fuel' = k + 1 := ⟨fuel' - 1, by omega⟩
    intro ctx model d d' hd t q t' h
    obtain ⟨m, e, hm, he, hcases⟩ := queryIn_gives h
    obtain ⟨e', he', hee⟩ := withActive_alike c.registry ctx m hd e he
    have hsame : e'.isEmpty = e.isEmpty := Json.isEmpty_of_forall₂ hee
    rcases hcases with ⟨rfl, rfl⟩ | ⟨hne, cond, qe, t₁, hon, rfl⟩
    · exact ⟨_, queryIn_empty hm he' hsame fuel', .refl _⟩
    · have hbuild : BuildsAlike (c.queryIn fuel) (c.queryIn fuel') := ih (by omega)
      have hleft : 2 * fuel ≤ fuel' := by omega
      obtain ⟨cond', qe', hcond, hqe, hruns⟩ :=
        compileOn_alike ⟨hbackend, hhooks⟩ hbuild hleft ⟨m, m.table⟩ hee (.refl _) hon
      refine ⟨_, fun tr => ?_, hqe.addCondition hcond⟩
      obtain ⟨tr', hon'⟩ := hruns tr
      have hrun := queryIn_run hm he' (hsame.trans (List.isEmpty_eq_false_iff.mpr hne)) fuel' tr
      rw [hon'] at hrun
      exact ⟨_, hrun⟩

/-- What strings say stays out of the SQL: where no search hook is registered and no database is asked, a domain
    that differs from one with a query only in what its strings say, none of them empty but in lists, has a query
    with the same joins, the same condition but for the bound values, and as many of these. -/
theorem query_alike (c : Compiler) (hbackend : c.backend = .offline) (hhooks : ∀ name, c.registry.hook? name = none)
    (model : String) {d d' : Domain} (hd : d.Alike d') {fuel : Nat} {t t' : Trace} {q : Query}
    (h : (c.query fuel model d).Gives t q t') {fuel' : Nat} (hfuel : 2 * fuel ≤ fuel') :
    ∃ q', (c.query fuel' model d').Yields q' ∧ q'.joins = q.joins ∧
      q'.condition.fragment.sql = q.condition.fragment.sql ∧
      q'.condition.fragment.params.length = q.condition.fragment.params.length := by
  obtain ⟨q', hyields, halike⟩ := queryIn_alike c hbackend hhooks hfuel c.context model hd t q t' h
  exact ⟨q', hyields, halike.joins.symm, halike.condition.sql.symm, halike.condition.params.symm⟩

/-- A model of events with a name and a time at which they start. -/
def eventModel : Model :=
  ((Model.ofTable "event" "event").withField { name := "name", type := .char }).withField
    { name := "start", type := .datetime }

/-- A compiler for events, without a database. -/
def eventCompiler : Compiler where
  registry := { models := Keyed.empty.insert "event" eventModel }
  context := { lang := "en_US", unaccent := false, activeTest := true, maxIterations := 10
               attachmentTable := "ir_attachment" }

/-- The events that start after some time and have one of some names. -/
def eventsAfter (start : String) (names : List String) : Domain :=
  [.leaf ⟨"start", .gt, .value (.str start)⟩, .leaf ⟨"name", .within, .value (.arr (names.map .str))⟩]

/-- A date is widened, a piece of SQL is not, and yet the conditions are the same. -/
theorem query_alike_events :
    ∃ q t, (eventCompiler.query 5 "event" (eventsAfter "2024-01-31" ["", "%s"])).Gives {} q t ∧
      ∃ q', (eventCompiler.query 10 "event" (eventsAfter "' OR TRUE" ["a", "b"])).Yields q' ∧ q'.joins = q.joins ∧
        q'.condition.fragment.sql = q.condition.fragment.sql ∧
        q'.condition.fragment.params.length = q.condition.fragment.params.length := by
  have halike : (eventsAfter "2024-01-31" ["", "%s"]).Alike (eventsAfter "' OR TRUE" ["a", "b"]) :=
    .cons (.leaf ⟨rfl, rfl, .value (.str (by decide) (by decide))⟩)
      (.cons (.leaf ⟨rfl, rfl, .value (.arr (.cons (.str _ _) (.cons (.str _ _) .nil)))⟩) .nil)
  have hok : ((eventCompiler.query 5 "event" (eventsAfter "2024-01-31" ["", "%s"])).run {}).1.isOk = true := by
    decide +kernel
  rcases h : (eventCompiler.query 5 "event" (eventsAfter "2024-01-31" ["", "%s"])).run {} with ⟨stop | q, t⟩
  · rw [h] at hok
    cases hok
  exact ⟨q, t, h, query_alike eventCompiler rfl (fun _ => rfl) "event" halike h (by decide)⟩

end RecordFilter.Compile
