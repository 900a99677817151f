import RecordFilter.Proofs.Compile.Recursion

/-! Leaves that settle: whatever was called before and whatever else there is to do, the machine arrives at
    the same condition in the same number of steps. Then so does the compilation of the leaf, with every fuel
    that suffices. -/

namespace RecordFilter

namespace Run
variable {α β : Type}

theorem eq_ok_of_gives {x : Except Error α} {a : α} {t t' : Trace} (h : (Run.ofExcept x).Gives t a t') :
    x = .ok a := by
  cases x with
  | ok b =>
    cases h
    rfl
  | error e => cases h

/-- From every trace the run gives `a`. -/
def Yields (x : Run α) (a : α) : Prop := ∀ t, ∃ t', x.Gives t a t'

namespace Yields
variable {a : α}

theorem pure (a : α) : (Pure.pure a : Run α).Yields a := fun t => ⟨t, rfl⟩

theorem bind {x : Run α} {f : α → Run β} {b : β} (hx : x.Yields a) (hf : (f a).Yields b) : (x >>= f).Yields b := by
  intro t
  obtain ⟨t₁, h₁⟩ := hx t
  obtain ⟨t₂, h₂⟩ := hf t₁
  exact ⟨t₂, gives_bind.mpr ⟨a, t₁, h₁, h₂⟩⟩

theorem ofExcept {x : Except Error α} (h : x = .ok a) : (Run.ofExcept x).Yields a := h ▸ pure a

theorem log (e : Log.Event) (fields : List (String × String)) : (Run.log e fields).Yields () := fun _ => ⟨_, rfl⟩

end Yields
end Run

namespace Compile
open Sql

variable {s : Setting} {build : QueryBuilder} {l : Leaf} {p : Place} {c : Cond} {n : Nat}

/-! ### Leaves -/

theorem emitLeaf_yields (hc : plainCondition l p s.context = .ok c) : (emitLeaf s l p).Yields (.emit c) := by
  unfold emitLeaf
  refine .bind (.ofExcept hc) ?_
  cases leafNotice? l with
  | none => exact .pure _
  | some notice => exact .bind (.log _ _) (.pure _)

theorem emitLeaf_gives {t t' : Trace} {step : Step} (h : (emitLeaf s l p).Gives t step t') :
    ∃ c, plainCondition l p s.context = .ok c ∧ step = .emit c := by
  unfold emitLeaf at h
  obtain ⟨c, t₁, hc, h⟩ := Run.gives_bind.mp h
  refine ⟨c, Run.eq_ok_of_gives hc, ?_⟩
  dsimp only at h
  split at h
  · obtain ⟨_, t₂, -, h⟩ := Run.gives_bind.mp h
    cases h
    rfl
  · cases h
    rfl

theorem reduce_of_classify {kind : FieldKind} (hop : l.op ≠ .eqIfSet)
    (hk : classify s.registry p.model l = .ok kind) {step : Step} (hs : (reduceKind s build l p kind).Yields step) :
    (reduce s build l p).Yields step := by
  unfold reduce
  rw [if_neg hop]
  exact .bind (.ofExcept hk) hs

/-! ### Machines -/

namespace Machine
variable {m m' m'' : Machine}

/-- In `n` steps the machine gets from `m` to `m'`, whatever was called before. -/
def Moves (s : Setting) (build : QueryBuilder) (n : Nat) (m m' : Machine) : Prop :=
  ∀ fuel tr, ∃ tr', outcome s build (fuel + n) m tr = outcome s build fuel m' tr'

theorem Moves.refl (m : Machine) : Moves s build 0 m m := fun _ tr => ⟨tr, rfl⟩

theorem Moves.trans {k : Nat} (h : Moves s build n m m') (h' : Moves s build k m' m'') :
    Moves s build (k + n) m m'' := by
  intro fuel tr
  obtain ⟨tr₁, h₁⟩ := h (fuel + k) tr
  obtain ⟨tr₂, h₂⟩ := h' fuel tr₁
  exact ⟨tr₂, by rw [← h₂, ← h₁, Nat.add_assoc]⟩

theorem moves_step {item : Work} {rest : List Work} {results : List Cond} {q : Query}
    (h : (step s build item rest results q).Yields m') : Moves s build 1 ⟨item :: rest, results, q⟩ m' := by
  intro fuel tr
  obtain ⟨tr', h'⟩ := h tr
  refine ⟨tr', (outcome_succ fuel item rest results q tr).trans ?_⟩
  rw [h']

theorem moves_leaf {next : Step} (h : (reduce s build l p).Yields next) (rest : List Work) (results : List Cond)
    (q : Query) : Moves s build 1 ⟨⟨.leaf l, p⟩ :: rest, results, q⟩ (take q results rest next) := by
  intro fuel tr
  obtain ⟨tr', h'⟩ := h tr
  refine ⟨tr', (outcome_leaf fuel l p rest results q tr).trans ?_⟩
  rw [h']

end Machine

/-- In `n` steps the machine has the condition of the leaf on its stack, whatever waits below. -/
def Settles (s : Setting) (build : QueryBuilder) (n : Nat) (l : Leaf) (p : Place) (c : Cond) : Prop :=
  ∀ rest results q, Machine.Moves s build n ⟨⟨.leaf l, p⟩ :: rest, results, q⟩ ⟨rest, c :: results, q⟩

theorem settles_emit (h : (reduce s build l p).Yields (.emit c)) : Settles s build 1 l p c := Machine.moves_leaf h

/-- A leaf in the stead of a leaf takes one more step. -/
theorem Settles.replaced {l' : Leaf} {p' : Place} (h' : Settles s build n l' p' c)
    (h : (reduce s build l p).Yields (.leaf l' p')) : Settles s build (n + 1) l p c := fun rest results q =>
  (Machine.moves_leaf h rest results q).trans (h' rest results q)

theorem Settles.compileOn (h : Settles s build n l p c) {fuel : Nat} (hfuel : n ≤ fuel) (q : Query) (tr : Trace) :
    ∃ tr', (Compiler.compileOn s build fuel p [.leaf l] q).run tr = ((.ok c, q), tr') := by
  obtain ⟨left, rfl⟩ := Nat.exists_eq_add_of_le' hfuel
  obtain ⟨tr', h'⟩ := h [] [] q left tr
  exact ⟨tr', h'.trans (Machine.outcome_nil left [c] q tr')⟩

/-- The condition that a domain compiles to is added to the query. -/
theorem compileWith_of_compileOn {fuel : Nat} {model : String} (hm : s.registry.model model = .ok p.model) {d : Domain}
    {q q' : Query} (hq : q.tableAlias = p.tableAlias) {tr tr' : Trace}
    (hon : (Compiler.compileOn s build fuel p d q).run tr = ((.ok c, q'), tr')) :
    ∃ tr₁, (Compiler.compileWith s build fuel model d q).run tr = ((.ok (), q'.addCondition c), tr₁) := by
  have hwith := compileWith_run s build hm fuel d q tr
  rw [hq, hon] at hwith
  exact ⟨_, hwith⟩

theorem Settles.compileWith (h : Settles s build n l p c) {fuel : Nat} (hfuel : n ≤ fuel) {model : String}
    (hm : s.registry.model model = .ok p.model) {q : Query} (hq : q.tableAlias = p.tableAlias) (tr : Trace) :
    ∃ tr', (Compiler.compileWith s build fuel model [.leaf l] q).run tr = ((.ok (), q.addCondition c), tr') := by
  obtain ⟨tr₁, hon⟩ := h.compileOn hfuel q tr
  exact compileWith_of_compileOn hm hq hon

/-- A domain compiles with the one condition that the machine arrives at, and the joins made on the way. -/
theorem compileOn_of_moves {d e : Domain} {q q' : Query} (hd : Domain.distributeNot d = .ok e)
    (h : Machine.Moves s build n (Machine.start p e q) ⟨[], [c], q'⟩) {fuel : Nat} (hfuel : n ≤ fuel) (tr : Trace) :
    ∃ tr', (Compiler.compileOn s build fuel p d q).run tr = ((.ok c, q'), tr') := by
  obtain ⟨left, rfl⟩ := Nat.exists_eq_add_of_le' hfuel
  obtain ⟨tr', hrun⟩ := h left tr
  refine ⟨tr', ?_⟩
  unfold Compiler.compileOn
  rw [hd]
  exact hrun.trans (Machine.outcome_nil left [c] q' tr')

theorem compileWith_of_moves {d e : Domain} {q q' : Query} (hd : Domain.distributeNot d = .ok e)
    (h : Machine.Moves s build n (Machine.start p e q) ⟨[], [c], q'⟩) {fuel : Nat} (hfuel : n ≤ fuel) {model : String}
    (hm : s.registry.model model = .ok p.model) (hq : q.tableAlias = p.tableAlias) (tr : Trace) :
    ∃ tr', (Compiler.compileWith s build fuel model d q).run tr = ((.ok (), q'.addCondition c), tr') := by
  obtain ⟨tr₁, hon⟩ := compileOn_of_moves hd h hfuel tr
  exact compileWith_of_compileOn hm hq hon

/-! ### Queries of domains -/

section
variable {comp : Compiler} {ctx : Context} {model : String} {m : Model} {d e : Domain}

/-- Where no record is hidden, domains stay as they are. -/
theorem withActive_of_off {r : Registry} (h : ctx.activeTest = false) (m : Model) (d : Domain) :
    withActive r ctx m d = .ok d := by
  unfold withActive
  rw [h]
  rfl

theorem queryIn_empty (hm : comp.registry.model model = .ok m) (he : withActive comp.registry ctx m d = .ok e)
    (hempty : e.isEmpty = true) (fuel : Nat) : (comp.queryIn (fuel + 1) ctx model d).Yields (.ofTable m.table) := by
  unfold Compiler.queryIn
  refine .bind (.ofExcept hm) (.bind (.ofExcept he) ?_)
  rw [if_pos hempty]
  exact .pure _

/-- The query of a domain has the condition that its compilation on the model's table gives. -/
theorem queryIn_run (hm : comp.registry.model model = .ok m) (he : withActive comp.registry ctx m d = .ok e)
    (hempty : e.isEmpty = false) (fuel : Nat) (tr : Trace) :
    (comp.queryIn (fuel + 1) ctx model d).run tr =
      match (Compiler.compileOn (comp.setting ctx) (comp.queryIn fuel) fuel ⟨m, m.table⟩ e (.ofTable m.table)).run tr with
      | ((.ok c, q), tr') => (.ok (q.addCondition c), ((Compiler.noticeCompiled m e c q).run.run tr').2)
      | ((.error stop, _), tr') => (.error stop, tr') := by
  have hwith := compileWith_run (comp.setting ctx) (comp.queryIn fuel) hm fuel e (.ofTable m.table) tr
  rw [show (Query.ofTable m.table).tableAlias = m.table from rfl] at hwith
  rw [Compiler.queryIn]
  show (Run.ofExcept (comp.registry.model model) >>= _ : Run Query).run tr = _
  rw [hm, Run.run_bind]
  show (Run.ofExcept (withActive comp.registry ctx m d) >>= _ : Run Query).run tr = _
  rw [he, Run.run_bind]
  show (ite (e.isEmpty = true) _ _ : Run Query).run tr = _
  rw [hempty, if_neg Bool.false_ne_true, Run.run_bind, Run.run_lift, hwith]
  rcases (Compiler.compileOn (comp.setting ctx) (comp.queryIn fuel) fuel ⟨m, m.table⟩ e (.ofTable m.table)).run tr with
    ⟨⟨stop | c, q⟩, tr'⟩ <;> rfl

/-- A query is that of a whole table, or that of the domain's condition. -/
theorem queryIn_gives {fuel : Nat} {q : Query} {tr tr' : Trace}
    (h : (comp.queryIn (fuel + 1) ctx model d).Gives tr q tr') :
    ∃ m e, comp.registry.model model = .ok m ∧ withActive comp.registry ctx m d = .ok e ∧
      (e = [] ∧ q = .ofTable m.table ∨ e ≠ [] ∧ ∃ c q' tr',
        (Compiler.compileOn (comp.setting ctx) (comp.queryIn fuel) fuel ⟨m, m.table⟩ e (.ofTable m.table)).run tr =
          ((.ok c, q'), tr') ∧ q = q'.addCondition c) := by
  obtain ⟨m, e, hm, he⟩ : ∃ m e, comp.registry.model model = .ok m ∧ withActive comp.registry ctx m d = .ok e := by
    unfold Compiler.queryIn at h
    obtain ⟨m, _, hm, h⟩ := Run.gives_bind.mp h
    obtain ⟨e, _, he, -⟩ := Run.gives_bind.mp h
    exact ⟨m, e, Run.eq_ok_of_gives hm, Run.eq_ok_of_gives he⟩
  refine ⟨m, e, hm, he, ?_⟩
  cases hempty : e.isEmpty with
  | true =>
    obtain ⟨tr₁, h₁⟩ := queryIn_empty hm he hempty fuel tr
    cases h.symm.trans h₁
    exact .inl ⟨List.isEmpty_iff.mp hempty, rfl⟩
  | false =>
    rw [Run.Gives, queryIn_run hm he hempty fuel tr] at h
    rcases hon : (Compiler.compileOn (comp.setting ctx) (comp.queryIn fuel) fuel ⟨m, m.table⟩ e (.ofTable m.table)).run
      tr with ⟨⟨stop | c, q'⟩, tr₁⟩ <;> rw [hon] at h <;> cases h
    exact .inr ⟨List.isEmpty_eq_false_iff.mp hempty, c, q', tr₁, rfl, rfl⟩

/-- Where no record is hidden, the query of the leaf has its condition and no other. -/
theorem Settles.queryIn {fuel : Nat}
    (h : Settles (comp.setting ctx) (comp.queryIn fuel) n l ⟨m, m.table⟩ c) (hfuel : n ≤ fuel)
    (hm : comp.registry.model model = .ok m) (hactive : ctx.activeTest = false) :
    (comp.queryIn (fuel + 1) ctx model [.leaf l]).Yields ((Query.ofTable m.table).addCondition c) := by
  have hd : withActive comp.registry ctx m [.leaf l] = .ok [.leaf l] := withActive_of_off hactive m _
  intro tr
  obtain ⟨tr', hon⟩ := h.compileOn hfuel (.ofTable m.table) tr
  have hrun := queryIn_run hm hd rfl fuel tr
  rw [hon] at hrun
  exact ⟨_, hrun⟩

end
end Compile
end RecordFilter
