import Mathlib.Algebra.Order.BigOperators.Group.List
import Mathlib.Algebra.Order.Group.Nat
import RecordFilter.Proofs.Compile.AlikeLeaves
import RecordFilter.Proofs.Compile.Asking
import RecordFilter.Proofs.Compile.Delegation
import RecordFilter.Proofs.Compile.Routes

/-! Compilations finish. Over an accepted registry without cyclic delegation and without search hooks, a leaf is
    replaced finitely often: its rank goes down, or it climbs to a parent, or what stands in its stead is emitted next.
    The queries that it asks for have lower ranks. So by induction on the rank, from some amount of fuel on the outcome
    of a compilation is always the same, and never that the fuel ran out. -/

namespace RecordFilter

namespace Run
variable {α : Type}

/-- From every trace on, the runs are all the same from some amount of fuel on, and the fuel suffices. -/
def Arrives (f : Nat → Run α) : Prop := ∀ t, ∃ bound o, o.1 ≠ .error .unfinished ∧ ∀ n ≥ bound, (f n).run t = o

/-- A run without fuel that does not say that there is too little. -/
theorem Arrives.const {x : Run α} (h : x.Meets (fun _ => True) (· ≠ .unfinished)) : Arrives fun _ => x := by
  refine fun t => ⟨0, x.run t, fun hstop => ?_, fun _ _ => rfl⟩
  have hstops : x.Stops t .unfinished (x.run t).2 := Prod.ext hstop rfl
  exact h.stops hstops rfl

theorem Arrives.ofExcept (x : Except Error α) : Arrives fun _ => Run.ofExcept x :=
  .const (.ofExcept (fun _ _ => trivial) fun _ _ => nofun)

theorem Arrives.pred {f : Nat → Run α} (h : Arrives fun n => f (n + 1)) : Arrives f := by
  intro t
  obtain ⟨bound, o, ho, hrun⟩ := h t
  refine ⟨bound + 1, o, ho, fun n hn => ?_⟩
  obtain ⟨n, rfl⟩ := Nat.exists_eq_add_of_le' (Nat.le_trans (Nat.le_add_left 1 bound) hn)
  exact hrun n (Nat.le_of_succ_le_succ hn)

theorem Arrives.bind {β : Type} {f : Nat → Run α} {g : Nat → α → Run β} (hf : Arrives f)
    (hg : ∀ a, (∃ n t t', (f n).Gives t a t') → Arrives (g · a)) : Arrives fun n => f n >>= g n := by
  intro t
  obtain ⟨bound, ⟨x, t₁⟩, hx, hrun⟩ := hf t
  cases x with
  | error stop =>
    refine ⟨bound, (.error stop, t₁), fun hstop => hx (by cases hstop; rfl), fun n hn => ?_⟩
    rw [run_bind, hrun n hn]
  | ok a =>
    obtain ⟨bound', o, ho, hrun'⟩ := hg a ⟨bound, t, t₁, hrun bound (Nat.le_refl _)⟩ t₁
    refine ⟨max bound bound', o, ho, fun n hn => ?_⟩
    rw [run_bind, hrun n (by omega)]
    exact hrun' n (by omega)

end Run

namespace Compile
open Sql

/-- Where the builders arrive at the queries that are asked for, so do the runs. -/
theorem Consults.arrives {α : Type} {D : Context → String → Domain → Prop} {E : Stop → Prop} {P : α → Prop}
    {f : QueryBuilder → Run α} (h : Consults D E P f) (hE : ¬E .unfinished) {builds : Nat → QueryBuilder}
    (hbuild : ∀ {ctx model d}, D ctx model d → Run.Arrives fun n => builds n ctx model d) :
    Run.Arrives fun n => f (builds n) := by
  induction h with
  | own h => exact .const ⟨fun _ => trivial, fun hstop hunfinished => hE (hunfinished ▸ h.stops hstop)⟩
  | build h => exact hbuild h
  | bind hf _ ihf ihg => exact ihf.bind fun a ⟨_, _, _, ha⟩ => ihg a (hf.gives ha)

/-! ### Replacements -/

/-- With some builder, the leaf `x` is replaced by tokens with the leaf `y` among them. -/
def Replaces (s : Setting) (y x : Leaf × Place) : Prop :=
  ∃ build t step t', (reduce s build x.1 x.2).Gives t step t' ∧ ⟨.leaf y.1, y.2⟩ ∈ step.works

/-- The leaf is not replaced. -/
def Settled (s : Setting) (x : Leaf × Place) : Prop := ∀ y, ¬Replaces s y x

variable {s : Setting} {l : Leaf} {p : Place}

theorem Settled.acc {x : Leaf × Place} (h : Settled s x) : Acc (Replaces s) x := .intro x fun y hy => absurd hy (h y)

/-- Leaves of a kind whose condition is emitted are not replaced. -/
theorem settled_of_kind (hop : l.op ≠ .eqIfSet) {kind : FieldKind} (hk : classify s.registry p.model l = .ok kind)
    (hemit : ∀ build, reduceKind s build l p kind = emitLeaf s l p) : Settled s (l, p) := by
  rintro y ⟨build, t, step, t', hgives, hmem⟩
  unfold reduce at hgives
  rw [if_neg hop] at hgives
  obtain ⟨kind', t₁, hk', hgives⟩ := Run.gives_bind.mp hgives
  cases hk.symm.trans (Run.eq_ok_of_gives hk')
  rw [hemit] at hgives
  obtain ⟨c, -, rfl⟩ := emitLeaf_gives hgives
  cases hmem

/-- A leaf that asks for membership of the id is emitted. -/
theorem settled_id (hr : s.registry.Valid) (hid : s.registry.KeepsIds) (hm : s.registry.Has p.model) {op : Operator}
    (hop : op = .within ∨ op = .notIn) (right : Operand) : Settled s (⟨"id", op, right⟩, p) := by
  have hclass : classify s.registry p.model ⟨"id", op, right⟩ = .ok .plain := by
    rw [classify_own hr hm (hid p.model hm) (by rcases hop with rfl | rfl <;> rfl)]
    rfl
  exact settled_of_kind (by rcases hop with rfl | rfl <;> nofun) hclass fun _ => rfl

/-- A leaf with the ids of records that were given by name is emitted. -/
theorem settled_named {comodel : Model} {v : Json} (hk : classify s.registry p.model l = .ok (.many2one comodel))
    (hop : l.op.isHierarchy = false) (hv : names? v = none) : Settled s (⟨l.left, .within, .value v⟩, p) := by
  have hwithin : Operator.within.isHierarchy = l.op.isHierarchy := hop.symm
  refine settled_of_kind nofun (classify_with (.value v) hwithin hk) fun build => ?_
  unfold reduceKind reduceMany2one
  simp [Direction.ofOperator?, hv]

/-- A time is not widened again. -/
theorem settled_widened {l' : Leaf} (hop : l.op ≠ .eqIfSet) (hk : classify s.registry p.model l = .ok .datetime)
    (hl' : widenDate? l = some l') : Settled s (l', p) := by
  obtain ⟨date, time, -, -, rfl⟩ := widenDate?_eq_some hl'
  refine settled_of_kind hop (classify_with _ rfl hk) fun build => ?_
  unfold reduceKind
  rw [widenDate?_widened hl']

/-- A leaf is replaced finitely often if all that it can turn into is. -/
theorem acc_of_turns (hr : s.registry.Valid) (hhooks : s.registry.Hookless) (hm : s.registry.Has p.model)
    (h : ∀ step, Turns s l p step → ∀ l' p', ⟨.leaf l', p'⟩ ∈ step.works → Acc (Replaces s) (l', p')) :
    Acc (Replaces s) (l, p) := by
  refine .intro _ fun y ⟨build, t, step, t', hgives, hmem⟩ => ?_
  exact h step ((reduce_consults hr hhooks hm).gives hgives) y.1 y.2 hmem

/-- A leaf is replaced finitely often if those of lower rank are, and so is the leaf on the parent that it climbs to. -/
theorem acc_of_climb (hr : s.registry.Valid) (hhooks : s.registry.Hookless) (hid : s.registry.KeepsIds)
    (hm : s.registry.Has p.model)
    (hlower : ∀ {l' p'}, s.registry.Has p'.model → l'.rank < l.rank → Acc (Replaces s) (l', p'))
    (hequal : l.op = .eqIfSet → ∀ {p'}, s.registry.Has p'.model → Acc (Replaces s) ({ l with op := .eq }, p'))
    (hclimbs : ∀ parent link, s.registry.resolve? p.model l.path.1 = some (.inherited parent link) →
      Acc (Replaces s) (l, ⟨parent, makeAlias p.tableAlias link⟩)) :
    Acc (Replaces s) (l, p) := by
  refine acc_of_turns hr hhooks hm fun step hstep l' p' hmem => ?_
  cases hstep with
  | emit c => cases hmem
  | equal hop =>
    cases List.mem_singleton.mp hmem
    exact hequal hop hm
  | inherited hresolve =>
    cases List.mem_singleton.mp hmem
    exact hclimbs _ _ hresolve
  | joined hcomodel hrest =>
    cases List.mem_singleton.mp hmem
    exact hlower hcomodel (by rw [← Leaf.rank_rest hrest]; omega)
  | id operand hop =>
    cases List.mem_singleton.mp hmem
    exact (settled_id hr hid hm hop operand).acc
  | named hk _ hop hv =>
    cases List.mem_singleton.mp hmem
    exact (settled_named hk hop hv).acc
  | widened hop hk hl' =>
    cases List.mem_singleton.mp hmem
    exact (settled_widened hop hk hl').acc
  | lower he hd =>
    obtain ⟨l₁, hl₁, hrank, rfl⟩ := rank_of_works he hmem
    exact hlower hm (hrank ▸ hd l₁ hl₁)

/-- Without cyclic delegation a leaf climbs until a model has its field, if any has. -/
theorem acc_of_lower (hr : s.registry.Valid) (hhooks : s.registry.Hookless) (hid : s.registry.KeepsIds)
    (hacyclic : s.registry.Acyclic) (hm : s.registry.Has p.model)
    (hlower : ∀ {l' p'}, s.registry.Has p'.model → l'.rank < l.rank → Acc (Replaces s) (l', p'))
    (hequal : l.op = .eqIfSet → ∀ {p'}, s.registry.Has p'.model → Acc (Replaces s) ({ l with op := .eq }, p')) :
    Acc (Replaces s) (l, p) := by
  cases hsome : (s.registry.resolve? p.model l.path.1).isSome with
  | false =>
    refine acc_of_climb hr hhooks hid hm hlower hequal fun parent link hresolve => ?_
    rw [hresolve] at hsome
    cases hsome
  | true =>
    obtain ⟨joins, p', f, hdelegates, -, hlocal⟩ := delegates_ends hm hsome hacyclic.not_bounces
    clear hsome
    induction hdelegates with
    | here p =>
      refine acc_of_climb hr hhooks hid hm hlower hequal fun parent link hresolve => ?_
      rw [hlocal] at hresolve
      cases hresolve
    | parent hresolve _ ih =>
      refine acc_of_climb hr hhooks hid hm hlower hequal fun parent' link' hresolve' => ?_
      rw [hresolve] at hresolve'
      cases hresolve'
      exact ih (Registry.PassesOn.has ⟨_, hresolve⟩) hlocal

/-- Every leaf is replaced finitely often. -/
theorem replaces_acc (hr : s.registry.Valid) (hhooks : s.registry.Hookless) (hid : s.registry.KeepsIds)
    (hacyclic : s.registry.Acyclic) (l : Leaf) (p : Place) (hm : s.registry.Has p.model) : Acc (Replaces s) (l, p) := by
  induction hn : l.rank using Nat.strongRecOn generalizing l p with
  | ind n ih =>
    subst hn
    -- `=?` becomes `=`, and comes up no more.
    have decided : ∀ {l' : Leaf} {p'}, s.registry.Has p'.model → l'.rank = l.rank → l'.op ≠ .eqIfSet →
        Acc (Replaces s) (l', p') := by
      intro l' p' hm' hrank hop
      refine acc_of_lower hr hhooks hid hacyclic hm' (fun hm'' hlower => ?_) fun hop' => absurd hop' hop
      exact ih _ (hrank ▸ hlower) _ _ hm'' rfl
    refine acc_of_lower hr hhooks hid hacyclic hm (fun hm' hlower => ih _ hlower _ _ hm' rfl) fun hop p' hm' => ?_
    exact decided hm' (by simp [Leaf.rank, hop, Operator.isHierarchy]) nofun

/-! ### Machines -/

/-- The builders from some amount of fuel on. -/
def From (builds : Nat → QueryBuilder) (bound : Nat) (build : QueryBuilder) : Prop := ∃ n ≥ bound, build = builds n

namespace Machine
variable {builds : Nat → QueryBuilder} {ws us : List Work}

theorem Clears.mono {builders builders' : QueryBuilder → Prop} {q : Query} {tr : Trace}
    {o : (Except Stop Cond × Query) × Trace} (h : Clears s builders ws q tr o)
    (hbuilders : ∀ build, builders' build → builders build) : Clears s builders' ws q tr o := by
  obtain ⟨n, hn⟩ := h
  exact ⟨n, fun build hbuild => hn build (hbuilders build hbuild)⟩

theorem Clears.later {bound bound' : Nat} (hbound : bound ≤ bound') {q : Query} {tr : Trace}
    {o : (Except Stop Cond × Query) × Trace} (h : Clears s (From builds bound) ws q tr o) :
    Clears s (From builds bound') ws q tr o :=
  h.mono fun _ ⟨n, hn, hbuild⟩ => ⟨n, Nat.le_trans hbound hn, hbuild⟩

/-- With the builders from some amount of fuel on, the machine does the work in the same number of steps and with the
    same outcome, and the fuel of the builders suffices. -/
def Ends (s : Setting) (builds : Nat → QueryBuilder) (ws : List Work) : Prop :=
  ∀ q tr, ∃ bound o, Finished o ∧ Clears s (From builds bound) ws q tr o

namespace Ends

theorem const (p : Place) (b : Bool) : Ends s builds [⟨if b then .true else .false, p⟩] := fun q tr =>
  ⟨0, ((.ok (.literal b), q), tr), nofun, .const p b⟩

theorem not (p : Place) (h : Ends s builds ws) : Ends s builds (⟨.not, p⟩ :: ws) := by
  intro q tr
  obtain ⟨bound, o, hfin, hclears⟩ := h q tr
  exact ⟨bound, _, finished_negated.mpr hfin, hclears.not p⟩

theorem combined {token : Work} {op : Cond → Cond → Cond}
    (hstep : ∀ build fuel rest results a b q tr,
      outcome s build (fuel + 1) ⟨token :: rest, a :: b :: results, q⟩ tr =
        outcome s build fuel ⟨rest, op a b :: results, q⟩ tr)
    (hleft : Ends s builds ws) (hright : Ends s builds us) : Ends s builds (token :: (ws ++ us)) := by
  intro q tr
  obtain ⟨bound, right, hfin, hclears⟩ := hright q tr
  -- The part on the left comes up where the other one left the query and the trace.
  obtain ⟨bound', left, hfin', hclears'⟩ := hleft right.1.2 right.2
  refine ⟨max bound bound', Compile.combined op (fun _ _ => left) (fun _ _ => right) q tr,
    finished_combined.mpr ⟨hfin, fun _ _ _ _ => hfin'⟩, .combined hstep (hclears.later (Nat.le_max_left _ _)) ?_⟩
  rintro b q' tr' rfl
  exact hclears'.later (Nat.le_max_right _ _)

end Ends
end Machine

/-- A tree is done where its leaves are. -/
theorem Spells.ends {builds : Nat → QueryBuilder} {ws : List Work} {t : Tree} (h : Spells ws t)
    (hleaf : ∀ l p, ⟨.leaf l, p⟩ ∈ ws → Machine.Ends s builds [⟨.leaf l, p⟩]) : Machine.Ends s builds ws := by
  induction h with
  | always p => exact .const p true
  | never p => exact .const p false
  | leaf l p => exact hleaf l p (List.mem_singleton_self _)
  | not p _ ih => exact .not p (ih fun l p hmem => hleaf l p (List.mem_cons_of_mem _ hmem))
  | and p _ _ iha ihb =>
    refine .combined (fun _ _ _ _ _ _ _ _ => rfl) (iha fun l p hmem => ?_) (ihb fun l p hmem => ?_)
    · exact hleaf l p (List.mem_cons_of_mem _ (List.mem_append_left _ hmem))
    · exact hleaf l p (List.mem_cons_of_mem _ (List.mem_append_right _ hmem))
  | or p _ _ iha ihb =>
    refine .combined (fun _ _ _ _ _ _ _ _ => rfl) (iha fun l p hmem => ?_) (ihb fun l p hmem => ?_)
    · exact hleaf l p (List.mem_cons_of_mem _ (List.mem_append_left _ hmem))
    · exact hleaf l p (List.mem_cons_of_mem _ (List.mem_append_right _ hmem))

/-- A leaf, where its reduction arrives and what stands in its stead ends. -/
theorem Machine.Ends.leaf {builds : Nat → QueryBuilder} (hreduce : Run.Arrives fun n => reduce s (builds n) l p)
    (hstead : ∀ y, Replaces s y (l, p) → Ends s builds [⟨.leaf y.1, y.2⟩]) :
    Ends s builds [⟨.leaf l, p⟩] := by
  intro q tr
  obtain ⟨bound, ⟨x, tr₁⟩, hx, hrun⟩ := hreduce tr
  cases x with
  | error e =>
    refine ⟨bound, ((.error e, q), tr₁), fun hstop => hx (by cases hstop; rfl), 1, ?_⟩
    rintro build ⟨n, hn, rfl⟩ fuel rest results
    exact (outcome_leaf fuel l p rest results q tr).trans (by rw [hrun n hn]; rfl)
  | ok step =>
    have hreduce : ∀ build, From builds bound build → (reduce s build l p).run tr = (.ok step, tr₁) := by
      rintro build ⟨n, hn, rfl⟩
      exact hrun n hn
    have hgives : (reduce s (builds bound) l p).Gives tr step tr₁ := hrun bound (Nat.le_refl _)
    -- What stands in the stead of the leaf is done after one step.
    have after : ∀ {items : List Work} {q' : Query}, Ends s builds items →
        (∀ rest results, take q results rest step = ⟨items.reverse ++ rest, results, q'⟩) →
        ∃ bound o, Finished o ∧ Clears s (From builds bound) [⟨.leaf l, p⟩] q tr o := by
      intro items q' hitems htake
      obtain ⟨bound', o, hfin, hclears⟩ := hitems q' tr₁
      have hlater : Clears s (From builds (max bound bound')) items q' tr₁ o := hclears.later (Nat.le_max_right _ _)
      refine ⟨max bound bound', o, hfin, .leaf (fun build ⟨k, hk, hbuild⟩ => ?_) htake hlater⟩
      exact hreduce build ⟨k, Nat.le_trans (Nat.le_max_left _ _) hk, hbuild⟩
    have hcomplete := (reduce_meets.gives hgives).complete
    cases step with
    | emit c =>
      refine ⟨bound, ((.ok c, q), tr₁), nofun, 1, fun build hbuild fuel rest results => ?_⟩
      exact (outcome_leaf fuel l p rest results q tr).trans (by rw [hreduce build hbuild]; rfl)
    | requeue items =>
      obtain ⟨t, ht⟩ := hcomplete
      refine after (ht.ends fun l' p' hmem => ?_) fun _ _ => rfl
      exact hstead (l', p') ⟨_, _, _, _, hgives, hmem⟩
    | follow join item =>
      obtain ⟨l', hl'⟩ := hcomplete
      obtain ⟨token, place⟩ := item
      cases hl'
      exact after (hstead (l', place) ⟨_, _, _, _, hgives, List.mem_singleton_self _⟩) fun _ _ => rfl

/-! ### Compilations -/

/-- The queries that a leaf asks for have lower ranks. -/
theorem Nests.lower {ctx : Context} {model : String} {d : Domain} (h : Nests s l ctx model d) :
    ∀ l' ∈ d.leaves, l'.rank < l.rank := by
  intro l' hl'
  cases h with
  | path _ _ hrest =>
    cases List.mem_singleton.mp hl'
    rw [← Leaf.rank_rest hrest]
    omega
  | hierarchy _ hop hd =>
    rw [hd.rank hl']
    exact Leaf.rank_pos_of_isHierarchy hop

theorem Nests.rank_pos {ctx : Context} {model : String} {d : Domain} (h : Nests s l ctx model d) : 0 < l.rank := by
  cases h with
  | path _ _ hrest =>
    rw [← Leaf.rank_rest hrest]
    omega
  | hierarchy _ hop _ => exact Leaf.rank_pos_of_isHierarchy hop

/-- Every domain of leaves up to some rank has a query. -/
def Serves (builds : Nat → QueryBuilder) (rank : Nat) : Prop :=
  ∀ ctx model (d : Domain), (∀ l ∈ d.leaves, l.rank ≤ rank) → Run.Arrives fun n => builds n ctx model d

/-- A leaf is done, if the queries of lower ranks are there. -/
theorem leaf_ends (hr : s.registry.Valid) (hhooks : s.registry.Hookless) {builds : Nat → QueryBuilder} {rank : Nat}
    (hbuilds : ∀ lower < rank, Serves builds lower) {x : Leaf × Place} (hacc : Acc (Replaces s) x)
    (hm : s.registry.Has x.2.model) (hrank : x.1.rank ≤ rank) : Machine.Ends s builds [⟨.leaf x.1, x.2⟩] := by
  induction hacc with
  | intro x _ ih =>
    obtain ⟨l, p⟩ := x
    have hconsults := reduce_consults (l := l) hr hhooks hm
    refine .leaf (hconsults.arrives nofun fun {ctx model d} hnests => ?_) fun y hy => ?_
    · have hpos := hnests.rank_pos
      refine hbuilds (l.rank - 1) (by dsimp only at hrank; omega) ctx model d fun l' hl' => ?_
      have := hnests.lower l' hl'
      omega
    · have hy' := hy
      obtain ⟨build, t, step, t', hgives, hmem⟩ := hy
      obtain ⟨hm', hrank'⟩ := (hconsults.gives hgives).keeps hm hmem
      exact ih y hy' hm' (Nat.le_trans hrank' hrank)

/-- So the compilation of a domain comes to the same end with every fuel from some amount on. -/
theorem compileOn_ends (hr : s.registry.Valid) (hhooks : s.registry.Hookless) (hid : s.registry.KeepsIds)
    (hacyclic : s.registry.Acyclic) {builds : Nat → QueryBuilder} {rank : Nat}
    (hbuilds : ∀ lower < rank, Serves builds lower) (hm : s.registry.Has p.model) {d : Domain}
    (hd : ∀ l ∈ d.leaves, l.rank ≤ rank) (q : Query) (tr : Trace) :
    ∃ bound o, Finished o ∧ ∀ fuel ≥ bound, (Compiler.compileOn s (builds fuel) fuel p d q).run tr = o := by
  cases he : Domain.distributeNot d with
  | error e =>
    refine ⟨0, ((.error (.error e), q), tr), nofun, fun _ _ => ?_⟩
    unfold Compiler.compileOn
    rw [he]
    rfl
  | ok e =>
    obtain ⟨t, ht⟩ := spells_of_distributeNot he p
    have hends : Machine.Ends s builds (Work.ofDomain p e) := ht.ends fun l p' hmem => by
      obtain ⟨l', hl', hrank, rfl⟩ := rank_of_works he hmem
      exact leaf_ends (x := (l, p')) hr hhooks hbuilds (replaces_acc hr hhooks hid hacyclic l p' hm) hm
        (hrank ▸ hd l' hl')
    obtain ⟨bound, o, hfin, hclears⟩ := hends q tr
    obtain ⟨bound', hon⟩ := hclears.compileOn he
    refine ⟨max bound bound', o, hfin, fun fuel hfuel => ?_⟩
    exact hon fuel (Nat.le_trans (Nat.le_max_right _ _) hfuel) _ ⟨fuel, Nat.le_trans (Nat.le_max_left _ _) hfuel, rfl⟩

/-- The same for the compilation into a query. -/
theorem compileWith_ends (hr : s.registry.Valid) (hhooks : s.registry.Hookless) (hid : s.registry.KeepsIds)
    (hacyclic : s.registry.Acyclic) {builds : Nat → QueryBuilder} {rank : Nat}
    (hbuilds : ∀ lower < rank, Serves builds lower) (model : String) {d : Domain} (hd : ∀ l ∈ d.leaves, l.rank ≤ rank)
    (q : Query) (tr : Trace) :
    ∃ bound o, Finished o ∧ ∀ fuel ≥ bound, (Compiler.compileWith s (builds fuel) fuel model d q).run tr = o := by
  cases hm : s.registry.model model with
  | error e =>
    refine ⟨0, ((.error (.error e), q), tr), nofun, fun fuel _ => ?_⟩
    unfold Compiler.compileWith
    rw [hm]
    rfl
  | ok m =>
    obtain ⟨bound, ⟨⟨x, q'⟩, tr'⟩, hfin, hon⟩ := compileOn_ends (p := ⟨m, q.tableAlias⟩) hr hhooks hid hacyclic hbuilds
      (Registry.has_of_model hm) hd q tr
    cases x with
    | error stop =>
      refine ⟨bound, ((.error stop, q'), tr'), fun hstop => hfin (by cases hstop; rfl), fun fuel hfuel => ?_⟩
      rw [compileWith_run _ _ hm, hon fuel hfuel]
    | ok cond =>
      refine ⟨bound, ((.ok (), q'.addCondition cond), ((Compiler.noticeCompiled m d cond q').run.run tr').2), nofun,
        fun fuel hfuel => ?_⟩
      rw [compileWith_run _ _ hm, hon fuel hfuel]

section
variable {c : Compiler}

/-- The leaf on the field that says whether a record is in use has no rank, so the domain has that of its own leaves. -/
theorem rank_withActive {ctx : Context} {m : Model} {d e : Domain}
    (hactive : ∀ active, c.registry.activeField? m = some active → '.' ∉ active.toList)
    (he : withActive c.registry ctx m d = .ok e) {rank : Nat} (hd : ∀ l ∈ d.leaves, l.rank ≤ rank) :
    ∀ l ∈ e.leaves, l.rank ≤ rank := by
  intro l hl
  rcases of_mem_leaves_withActive he hl with hl | ⟨active, hfield, rfl⟩
  · exact hd l hl
  · rw [Leaf.rank_of_dotless (hactive active hfield) rfl]
    exact Nat.zero_le _

/-- Queries of all ranks are there, by induction on the rank. -/
theorem queryIn_serves (hr : c.registry.Valid) (hhooks : c.registry.Hookless) (hid : c.registry.KeepsIds)
    (hacyclic : c.registry.Acyclic)
    (hactive : ∀ m active, c.registry.Has m → c.registry.activeField? m = some active → '.' ∉ active.toList)
    (rank : Nat) : Serves c.queryIn rank := by
  induction rank using Nat.strongRecOn with
  | ind rank ih =>
    intro ctx model d hd
    refine .pred ?_
    unfold Compiler.queryIn
    refine .bind (.ofExcept _) fun m hm => .bind (.ofExcept _) fun e he => ?_
    obtain ⟨_, _, _, hm⟩ := hm
    obtain ⟨_, _, _, he⟩ := he
    have hm := Run.eq_ok_of_gives hm
    have he := Run.eq_ok_of_gives he
    split
    · exact .const (.pure trivial)
    · intro tr
      have he' := rank_withActive (hactive m · (Registry.has_of_model hm)) he hd
      obtain ⟨bound, ⟨⟨x, q⟩, tr'⟩, hfin, hwith⟩ :=
        compileWith_ends (s := c.setting ctx) hr hhooks hid hacyclic ih model he' (.ofTable m.table) tr
      cases x with
      | error stop =>
        refine ⟨bound, (.error stop, tr'), fun hstop => hfin (by cases hstop; rfl), fun n hn => ?_⟩
        rw [Run.run_bind, Run.run_lift, hwith n hn]
        rfl
      | ok =>
        refine ⟨bound, (.ok q, tr'), fun hstop => (by cases hstop), fun n hn => ?_⟩
        rw [Run.run_bind, Run.run_lift, hwith n hn]
        rfl

/-- Every compilation finishes: from some amount of fuel on, its outcome is one and the same and not that the fuel ran
    out, and so are the queries that it asks for. Every leaf is replaced finitely often before its condition is emitted,
    and whatever it turns into hangs on queries for the rest of its path or for the records of a hierarchy alone. -/
theorem compile_finishes (c : Compiler) (hr : c.registry.Valid) (hacyclic : c.registry.Acyclic)
    (hhooks : c.registry.Hookless) (hid : c.registry.KeepsIds)
    (hactive : ∀ m active, c.registry.Has m → c.registry.activeField? m = some active → '.' ∉ active.toList) :
    (∀ model d q tr, ∃ bound o, Finished o ∧ ∀ fuel ≥ bound, (c.compile fuel model d q).run tr = o) ∧
    (∀ ctx model d, Run.Arrives fun fuel => c.queryIn fuel ctx model d) ∧
    ∀ ctx l p, c.registry.Has p.model → Acc (Replaces (c.setting ctx)) (l, p) ∧
      ∀ build build' : QueryBuilder,
        (∀ ctx' model d, Nests (c.setting ctx) l ctx' model d → build ctx' model d = build' ctx' model d) →
        ∀ tr, (reduce (c.setting ctx) build l p).run tr = (reduce (c.setting ctx) build' l p).run tr := by
  have hqueries := queryIn_serves hr hhooks hid hacyclic hactive
  -- Every domain is of some rank.
  have bounded : ∀ d : Domain, ∃ rank, ∀ l ∈ d.leaves, l.rank ≤ rank := fun d =>
    ⟨(d.leaves.map Leaf.rank).sum, fun l hl => List.le_sum_of_mem (List.mem_map_of_mem hl)⟩
  refine ⟨fun model d q tr => ?_, fun ctx model d => ?_, fun ctx l p hm => ⟨?_, fun build build' hbuild tr => ?_⟩⟩
  · obtain ⟨rank, hd⟩ := bounded d
    have hlower : ∀ lower < rank, Serves c.queryIn lower := fun lower _ => hqueries lower
    exact compileWith_ends (s := c.setting c.context) hr hhooks hid hacyclic hlower model hd q tr
  · obtain ⟨rank, hd⟩ := bounded d
    exact hqueries rank ctx model d hd
  · exact replaces_acc hr hhooks hid hacyclic l p hm
  · exact (reduce_consults hr hhooks hm).congr (fun hnests => hbuild _ _ _ hnests) tr

end

/-! ### Users -/

theorem keepsIds_users : userCompiler.registry.KeepsIds := by
  intro m hm
  rcases has_users hm with rfl | rfl | rfl <;> rfl

theorem acyclic_users : userCompiler.registry.Acyclic := by
  refine Registry.acyclic_of_rank (fun m => m.inherits.entries.length) fun hm ⟨parentName, link, hmem, hparent⟩ => ?_
  rcases has_users hm with rfl | rfl | rfl
  · cases List.mem_singleton.mp hmem
    cases hparent
    exact Nat.succ_pos 0
  · cases hmem
  · cases hmem

/-- The code of a user's country, if there is one to compare with: the leaf becomes one on the user, on the partner of
    the user and on the partner's country. -/
theorem compile_finishes_users :
    let c := userCompiler
    let l : Leaf := ⟨"country_id.code", .eqIfSet, .value (.str "NL")⟩
    c.registry.Valid ∧ c.registry.Acyclic ∧ c.registry.Hookless ∧ c.registry.KeepsIds ∧
      (∀ m active, c.registry.Has m → c.registry.activeField? m = some active → '.' ∉ active.toList) ∧
      ∃ bound o, Finished o ∧ ∀ fuel ≥ bound, (c.compile fuel "user" [.leaf l] (.ofTable "user")).run {} = o := by
  intro c l
  have hactive : ∀ m active, c.registry.Has m → c.registry.activeField? m = some active → '.' ∉ active.toList := by
    intro m active hm hfield
    rcases has_users hm with rfl | rfl | rfl <;> cases hfield
  have hhooks : c.registry.Hookless := fun _ => rfl
  exact ⟨valid_users, acyclic_users, hhooks, keepsIds_users, hactive,
    (compile_finishes c valid_users acyclic_users hhooks keepsIds_users hactive).1 _ _ _ _⟩

end Compile
end RecordFilter
