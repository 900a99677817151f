import RecordFilter.Proofs.Compile.Trees
import RecordFilter.Proofs.Sql.Fragments

/-! Compiling a domain on two stacks gives what the recursion over its tree gives: the same condition or
    the same error, the same query and the same calls. -/

namespace RecordFilter.Compile
open Sql

variable {α β : Type} {s : Setting} {build : QueryBuilder}

/-! ### Outcomes -/

namespace Building

theorem outcome_bind (x : Building α) (f : α → Building β) (q : Query) (t : Trace) :
    (x >>= f).outcome q t = match x.outcome q t with
      | ((.ok a, q'), t') => (f a).outcome q' t'
      | ((.error e, q'), t') => ((.error e, q'), t') := by
  show (x.run.run q t >>= fun r : (Except Stop α × Query) × Trace => ExceptT.bindCont f r.1.1 r.1.2 r.2) = _
  unfold outcome
  rcases h : x.run.run q t with ⟨⟨e | a, q'⟩, t'⟩ <;> simp only [StateT.run] at h ⊢ <;> rw [h] <;> rfl

theorem outcome_map (f : α → β) (x : Building α) (q : Query) (t : Trace) :
    (f <$> x).outcome q t = (((x.outcome q t).1.1.map f, (x.outcome q t).1.2), (x.outcome q t).2) := by
  rw [map_eq_pure_bind, outcome_bind]
  rcases x.outcome q t with ⟨⟨e | a, q'⟩, t'⟩ <;> rfl

theorem outcome_ofRun (r : Run α) (q : Query) (t : Trace) :
    (ofRun r).outcome q t = (((r.run t).1, q), (r.run t).2) := rfl

theorem outcome_change (f : Query → Query) (q : Query) (t : Trace) : (change f).outcome q t = ((.ok (), f q), t) :=
  rfl

end Building

/-- The fuel sufficed. -/
def Finished (o : (Except Stop α × Query) × Trace) : Prop := o.1.1 ≠ .error .unfinished

namespace Machine

/-- What becomes of a machine after some calls. -/
def outcome (s : Setting) (build : QueryBuilder) (fuel : Nat) (m : Machine) (t : Trace) :
    (Except Stop Cond × Query) × Trace := (run s build fuel m).run t

theorem outcome_nil (fuel : Nat) (results : List Cond) (q : Query) (t : Trace) :
    outcome s build fuel ⟨[], results, q⟩ t = ((result results, q), t) := by
  cases fuel <;> rfl

theorem outcome_succ (fuel : Nat) (item : Work) (rest : List Work) (results : List Cond) (q : Query) (t : Trace) :
    outcome s build (fuel + 1) ⟨item :: rest, results, q⟩ t =
      match (step s build item rest results q).run t with
      | (.ok next, t') => outcome s build fuel next t'
      | (.error e, t') => ((.error e, q), t') := by
  show (StateT.run ((step s build item rest results q).run >>= _) t) = _
  rw [StateT.run_bind]
  rcases hstep : StateT.run (step s build item rest results q).run t with ⟨e | next, t'⟩
  · rw [show (step s build item rest results q).run t = (.error e, t') from hstep]
    rfl
  · rw [show (step s build item rest results q).run t = (.ok next, t') from hstep]
    rfl

theorem outcome_leaf (fuel : Nat) (l : Leaf) (p : Place) (rest : List Work) (results : List Cond) (q : Query)
    (t : Trace) :
    outcome s build (fuel + 1) ⟨⟨.leaf l, p⟩ :: rest, results, q⟩ t =
      match (reduce s build l p).run t with
      | (.ok next, t') => outcome s build fuel (take q results rest next) t'
      | (.error e, t') => ((.error e, q), t') := by
  have hstep : step s build ⟨.leaf l, p⟩ rest results q =
      reduce s build l p >>= fun next => pure (take q results rest next) := by
    cases results <;> rfl
  rw [outcome_succ, hstep, Run.run_bind]
  rcases (reduce s build l p).run t with ⟨e | next, t'⟩ <;> rfl

/-- The machine after a tree: it goes on with the condition of the tree on its stack, or it has stopped. -/
def resume (s : Setting) (build : QueryBuilder) (fuel : Nat) (rest : List Work) (results : List Cond) :
    (Except Stop Cond × Query) × Trace → (Except Stop Cond × Query) × Trace
  | ((.ok c, q), t) => outcome s build fuel ⟨rest, c :: results, q⟩ t
  | ((.error e, q), t) => ((.error e, q), t)

/-- Nothing else to do. -/
theorem resume_nil (fuel : Nat) (o : (Except Stop Cond × Query) × Trace) : resume s build fuel [] [] o = o := by
  obtain ⟨⟨e | c, q⟩, t⟩ := o
  · rfl
  · exact outcome_nil fuel [c] q t

/-- An operator comes up after what it takes. -/
theorem work_not (token : Work) (ws rest : List Work) :
    (token :: ws).reverse ++ rest = ws.reverse ++ (token :: rest) := by
  simp

/-- Of two parts, the one on the right comes up first. -/
theorem work_combined (token : Work) (ws us rest : List Work) :
    (token :: (ws ++ us)).reverse ++ rest = us.reverse ++ (ws.reverse ++ (token :: rest)) := by
  simp

theorem start_eq (p : Place) (d : Domain) (q : Query) : start p d q = ⟨(Work.ofDomain p d).reverse ++ [], [], q⟩ := by
  rw [List.append_nil]
  rfl

end Machine

/-! ### The recursion, step by step -/

/-- The condition of a tree, by recursion. -/
abbrev treeOutcome (s : Setting) (build : QueryBuilder) (depth : Nat) (t : Tree) (q : Query) (tr : Trace) :
    (Except Stop Cond × Query) × Trace :=
  (Assembly.conditions.term (Assembly.conditions.leaf s build depth) t).outcome q tr

theorem treeOutcome_not (depth : Nat) (t : Tree) (q : Query) (tr : Trace) :
    treeOutcome s build depth (.not t) q tr =
      match treeOutcome s build depth t q tr with
      | ((.ok c, q'), tr') => ((.ok (.not c), q'), tr')
      | ((.error e, q'), tr') => ((.error e, q'), tr') := by
  simp only [treeOutcome, Assembly.term, Building.outcome_bind]
  rcases (Assembly.conditions.term (Assembly.conditions.leaf s build depth) t).outcome q tr with ⟨⟨e | c, q'⟩, tr'⟩ <;>
    rfl

/-- What an operator makes of the outcomes of its two parts. The one on the right comes first. -/
def combined (op : Cond → Cond → Cond) (left right : Query → Trace → (Except Stop Cond × Query) × Trace)
    (q : Query) (tr : Trace) : (Except Stop Cond × Query) × Trace :=
  match right q tr with
  | ((.ok b, q'), tr') =>
    match left q' tr' with
    | ((.ok a, q''), tr'') => ((.ok (op a b), q''), tr'')
    | ((.error e, q''), tr'') => ((.error e, q''), tr'')
  | ((.error e, q'), tr') => ((.error e, q'), tr')

/-- An operator finishes where those of its parts that come up do. -/
theorem finished_combined {op : Cond → Cond → Cond} {left right : Query → Trace → (Except Stop Cond × Query) × Trace}
    {q : Query} {tr : Trace} :
    Finished (combined op left right q tr) ↔
      Finished (right q tr) ∧ ∀ b q' tr', right q tr = ((.ok b, q'), tr') → Finished (left q' tr') := by
  unfold combined
  rcases hright : right q tr with ⟨⟨e | b, q'⟩, tr'⟩
  · exact ⟨fun h => ⟨h, nofun⟩, And.left⟩
  · dsimp only
    constructor
    · refine fun h => ⟨nofun, fun b' q₁ tr₁ h₁ => ?_⟩
      cases h₁
      rcases hleft : left q' tr' with ⟨⟨e | a, q''⟩, tr''⟩ <;> rw [hleft] at h
      · exact h
      · exact nofun
    · rintro ⟨-, h⟩
      have hfin := h b q' tr' rfl
      rcases hleft : left q' tr' with ⟨⟨e | a, q''⟩, tr''⟩ <;> rw [hleft] at hfin
      · exact hfin
      · exact nofun

theorem outcome_combined (op : Cond → Cond → Cond) (left right : Building Cond) :
    Building.outcome (do
      let b ← right
      let a ← left
      return op a b) = combined op left.outcome right.outcome := by
  funext q tr
  simp only [combined, Building.outcome_bind]
  rcases right.outcome q tr with ⟨⟨e | b, q'⟩, tr'⟩
  · rfl
  · dsimp only
    rcases left.outcome q' tr' with ⟨⟨e | a, q''⟩, tr''⟩ <;> rfl

theorem treeOutcome_and (depth : Nat) (a b : Tree) :
    treeOutcome s build depth (.and a b) = combined .and (treeOutcome s build depth a) (treeOutcome s build depth b) :=
  outcome_combined .and _ _

theorem treeOutcome_or (depth : Nat) (a b : Tree) :
    treeOutcome s build depth (.or a b) = combined .or (treeOutcome s build depth a) (treeOutcome s build depth b) :=
  outcome_combined .or _ _

theorem treeOutcome_not_ok {depth : Nat} {t : Tree} {q q' : Query} {tr tr' : Trace} {c : Cond}
    (h : treeOutcome s build depth (.not t) q tr = ((.ok c, q'), tr')) :
    ∃ c₁, c = .not c₁ ∧ treeOutcome s build depth t q tr = ((.ok c₁, q'), tr') := by
  rw [treeOutcome_not] at h
  rcases ht : treeOutcome s build depth t q tr with ⟨⟨e | c₁, q₁⟩, tr₁⟩ <;> rw [ht] at h <;> cases h
  exact ⟨c₁, rfl, rfl⟩

theorem combined_ok {op : Cond → Cond → Cond} {left right : Query → Trace → (Except Stop Cond × Query) × Trace}
    {q q' : Query} {tr tr' : Trace} {c : Cond} (h : combined op left right q tr = ((.ok c, q'), tr')) :
    ∃ a b q₁ tr₁, right q tr = ((.ok b, q₁), tr₁) ∧ left q₁ tr₁ = ((.ok a, q'), tr') ∧ c = op a b := by
  unfold combined at h
  rcases hright : right q tr with ⟨⟨e | b, q₁⟩, tr₁⟩ <;> rw [hright] at h
  · cases h
  · rcases hleft : left q₁ tr₁ with ⟨⟨e | a, q₂⟩, tr₂⟩ <;> dsimp only at h <;> rw [hleft] at h
    · cases h
    · cases h
      exact ⟨a, b, q₁, tr₁, rfl, hleft, rfl⟩

/-- Where a leaf has a condition, it is the one that its reduction emits, or that of what stands in its stead. -/
theorem treeOutcome_leaf_ok {depth : Nat} {l : Leaf} {p : Place} {q q' : Query} {tr tr' : Trace} {c : Cond}
    (h : treeOutcome s build (depth + 1) (.leaf (l, p)) q tr = ((.ok c, q'), tr')) :
    ∃ step tr₁, (reduce s build l p).Gives tr step tr₁ ∧
      (step = .emit c ∧ q' = q ∨
        (∃ items, step = .requeue items ∧ ∀ t, Spells items t → treeOutcome s build depth t q tr₁ = ((.ok c, q'), tr')) ∨
        ∃ join item, step = .follow join item ∧
          ∀ t, Spells [item] t → treeOutcome s build depth t (q.addJoin join) tr₁ = ((.ok c, q'), tr')) := by
  simp only [treeOutcome, Assembly.term, Assembly.leaf, Building.outcome_bind] at h
  rw [Building.outcome_ofRun] at h
  rcases hreduce : (reduce s build l p).run tr with ⟨e | step, tr₁⟩ <;> rw [hreduce] at h
  · cases h
  · refine ⟨step, tr₁, hreduce, ?_⟩
    cases step with
    | emit c' =>
      cases h
      exact .inl ⟨rfl, rfl⟩
    | requeue items =>
      refine .inr (.inl ⟨items, rfl, fun t ht => ?_⟩)
      simp only [ht.work_eq] at h
      exact h
    | follow join item =>
      refine .inr (.inr ⟨join, item, rfl, fun t ht => ?_⟩)
      simp only [ht.work_eq, Building.outcome_bind] at h
      rwa [Building.outcome_change] at h

/-- A leaf stops with its reduction, emits its condition, or has the value of the tree in its stead; and
    the machine does the same. -/
theorem leaf_cases (s : Setting) (build : QueryBuilder) (depth : Nat) (l : Leaf) (p : Place) (q : Query) (tr : Trace) :
    (∃ e tr', Fails s build l p e ∧ treeOutcome s build (depth + 1) (.leaf (l, p)) q tr = ((.error e, q), tr') ∧
      ∀ fuel rest results,
        Machine.outcome s build (fuel + 1) ⟨⟨.leaf l, p⟩ :: rest, results, q⟩ tr = ((.error e, q), tr')) ∨
    (∃ c tr', treeOutcome s build (depth + 1) (.leaf (l, p)) q tr = ((.ok c, q), tr') ∧
      ∀ fuel rest results,
        Machine.outcome s build (fuel + 1) ⟨⟨.leaf l, p⟩ :: rest, results, q⟩ tr =
          Machine.outcome s build fuel ⟨rest, c :: results, q⟩ tr') ∨
    (∃ items t q' tr', Spells items t ∧
      treeOutcome s build (depth + 1) (.leaf (l, p)) q tr = treeOutcome s build depth t q' tr' ∧
      ∀ fuel rest results,
        Machine.outcome s build (fuel + 1) ⟨⟨.leaf l, p⟩ :: rest, results, q⟩ tr =
          Machine.outcome s build fuel ⟨items.reverse ++ rest, results, q'⟩ tr') := by
  simp only [Machine.outcome_leaf, treeOutcome, Assembly.term, Assembly.leaf, Building.outcome_bind]
  rw [Building.outcome_ofRun]
  rcases h : (reduce s build l p).run tr with ⟨e | step, tr'⟩
  · exact Or.inl ⟨e, tr', reduce_meets.stops h, rfl, fun _ _ _ => rfl⟩
  · have hc : step.Complete := (reduce_meets.gives h).complete
    cases step with
    | emit c => exact Or.inr (Or.inl ⟨c, tr', rfl, fun _ _ _ => rfl⟩)
    | requeue items =>
      obtain ⟨t, ht⟩ := hc
      refine Or.inr (Or.inr ⟨items, t, q, tr', ht, ?_, fun _ _ _ => rfl⟩)
      simp only [ht.work_eq]
    | follow join item =>
      obtain ⟨token, place⟩ := item
      obtain ⟨l', rfl⟩ : ∃ l', token = .leaf l' := hc
      refine Or.inr (Or.inr ⟨_, _, q.addJoin join, tr', .leaf l' place, ?_, fun _ _ _ => rfl⟩)
      simp only [(Spells.leaf l' place).work_eq, Building.outcome_bind]
      rw [Building.outcome_change]

/-! ### Where the machine finishes, the recursion does -/

/-- Where the machine finishes, it has done the tree that the work spells as the recursion does it: what
    waits below is neither read nor changed before that. -/
def Machine.Mirrors (s : Setting) (build : QueryBuilder) (depth : Nat) (ws : List Work) (t : Tree) : Prop :=
  ∀ fuel ≤ depth, ∀ rest results q tr, Finished (outcome s build fuel ⟨ws.reverse ++ rest, results, q⟩ tr) →
    ∃ left ≤ fuel, outcome s build fuel ⟨ws.reverse ++ rest, results, q⟩ tr =
      resume s build left rest results (treeOutcome s build depth t q tr)

namespace Machine.Mirrors

theorem const {depth : Nat} {b : Bool} {token : Token} (p : Place) (htoken : token = if b then .true else .false) :
    Mirrors s build depth [⟨token, p⟩] (.const b) := by
  intro fuel hfuel rest results q tr hfin
  cases fuel with
  | zero => exact absurd rfl hfin
  | succ fuel =>
    subst htoken
    exact ⟨fuel, Nat.le_succ fuel, by cases b <;> cases results <;> rfl⟩

theorem leaf {depth : Nat} (l : Leaf) (p : Place)
    (ih : ∀ {ws t}, Spells ws t → Mirrors s build depth ws t) :
    Mirrors s build (depth + 1) [⟨.leaf l, p⟩] (.leaf (l, p)) := by
  intro fuel hfuel rest results q tr hfin
  cases fuel with
  | zero => exact absurd rfl hfin
  | succ fuel =>
    rcases leaf_cases s build depth l p q tr with
      ⟨e, tr', -, htree, hstep⟩ | ⟨c, tr', htree, hstep⟩ | ⟨items, t, q', tr', ht, htree, hstep⟩
    · rw [htree]
      exact ⟨fuel, Nat.le_succ fuel, hstep fuel rest results⟩
    · rw [htree]
      exact ⟨fuel, Nat.le_succ fuel, hstep fuel rest results⟩
    · have hgoes := hstep fuel rest results
      have hfin' : Finished (outcome s build fuel ⟨items.reverse ++ rest, results, q'⟩ tr') := hgoes ▸ hfin
      obtain ⟨left, hleft, hout⟩ := ih ht fuel (Nat.le_of_succ_le_succ hfuel) rest results q' tr' hfin'
      rw [htree]
      exact ⟨left, Nat.le_succ_of_le hleft, hgoes.trans hout⟩

theorem not {depth : Nat} {ws : List Work} {t : Tree} (p : Place) (h : Mirrors s build depth ws t) :
    Mirrors s build depth (⟨.not, p⟩ :: ws) (.not t) := by
  intro fuel hfuel rest results q tr hfin
  rw [work_not] at hfin ⊢
  obtain ⟨left, hleft, hout⟩ := h fuel hfuel (⟨.not, p⟩ :: rest) results q tr hfin
  rw [hout] at hfin ⊢
  rw [treeOutcome_not]
  rcases ht : treeOutcome s build depth t q tr with ⟨⟨e | c, q'⟩, tr'⟩ <;> rw [ht] at hfin
  · exact ⟨left, hleft, rfl⟩
  · cases left with
    | zero => exact absurd rfl hfin
    | succ left => exact ⟨left, Nat.le_of_succ_le hleft, rfl⟩

/-- An operator with two parts: what it makes of the conditions on the stack is what the recursion makes. -/
theorem combined {depth : Nat} {ws us : List Work} {a b t : Tree} {token : Work} {op : Cond → Cond → Cond}
    (hstep : ∀ fuel rest results a b q tr,
      outcome s build (fuel + 1) ⟨token :: rest, a :: b :: results, q⟩ tr =
        outcome s build fuel ⟨rest, op a b :: results, q⟩ tr)
    (htree : treeOutcome s build depth t =
      Compile.combined op (treeOutcome s build depth a) (treeOutcome s build depth b))
    (ha : Mirrors s build depth ws a) (hb : Mirrors s build depth us b) :
    Mirrors s build depth (token :: (ws ++ us)) t := by
  intro fuel hfuel rest results q tr hfin
  rw [work_combined] at hfin ⊢
  obtain ⟨left, hleft, hout⟩ := hb fuel hfuel _ results q tr hfin
  rw [hout] at hfin ⊢
  rw [htree, Compile.combined]
  rcases hright : treeOutcome s build depth b q tr with ⟨⟨e | right, q'⟩, tr'⟩ <;> rw [hright] at hfin
  · exact ⟨left, hleft, rfl⟩
  · obtain ⟨left', hleft', hout'⟩ := ha left (Nat.le_trans hleft hfuel) (token :: rest) (right :: results) q' tr' hfin
    dsimp only [resume] at hfin ⊢
    rw [hout'] at hfin ⊢
    rcases hleftOut : treeOutcome s build depth a q' tr' with ⟨⟨e | c, q''⟩, tr''⟩ <;> rw [hleftOut] at hfin
    · exact ⟨left', Nat.le_trans hleft' hleft, rfl⟩
    · cases left' with
      | zero => exact absurd rfl hfin
      | succ left' =>
        exact ⟨left', Nat.le_trans (Nat.le_of_succ_le hleft') hleft, hstep left' rest results c right q'' tr''⟩

end Machine.Mirrors

theorem Spells.mirrors_of_leaf {depth : Nat}
    (hleaf : ∀ l p, Machine.Mirrors s build depth [⟨.leaf l, p⟩] (.leaf (l, p))) {ws : List Work} {t : Tree}
    (h : Spells ws t) : Machine.Mirrors s build depth ws t := by
  induction h with
  | always p => exact .const p rfl
  | never p => exact .const p rfl
  | leaf l p => exact hleaf l p
  | not p _ ih => exact ih.not p
  | and p _ _ iha ihb => exact .combined (fun _ _ _ _ _ _ _ => rfl) (treeOutcome_and _ _ _) iha ihb
  | or p _ _ iha ihb => exact .combined (fun _ _ _ _ _ _ _ => rfl) (treeOutcome_or _ _ _) iha ihb

theorem Spells.mirrors {ws : List Work} {t : Tree} (h : Spells ws t) (depth : Nat) :
    Machine.Mirrors s build depth ws t := by
  -- By induction on the replacements in the stead of a leaf; without fuel no leaf is done.
  induction depth generalizing ws t with
  | zero =>
    refine h.mirrors_of_leaf fun l p fuel hfuel rest results q tr hfin => ?_
    cases Nat.le_zero.mp hfuel
    exact absurd rfl hfin
  | succ depth ih => exact h.mirrors_of_leaf fun l p => .leaf l p ih

/-! ### Where the recursion finishes, the machine does -/

/-- With each of some builders the machine does the work in the same number of steps, whatever waits below, and goes on
    with the outcome. -/
def Machine.Clears (s : Setting) (builders : QueryBuilder → Prop) (ws : List Work) (q : Query) (tr : Trace)
    (o : (Except Stop Cond × Query) × Trace) : Prop :=
  ∃ n, ∀ build, builders build → ∀ fuel rest results,
    outcome s build (fuel + n) ⟨ws.reverse ++ rest, results, q⟩ tr = resume s build fuel rest results o

/-- What a negation makes of an outcome. -/
def negated : (Except Stop Cond × Query) × Trace → (Except Stop Cond × Query) × Trace
  | ((.ok c, q), tr) => ((.ok (.not c), q), tr)
  | ((.error e, q), tr) => ((.error e, q), tr)

theorem finished_negated {o : (Except Stop Cond × Query) × Trace} : Finished (negated o) ↔ Finished o := by
  rcases o with ⟨⟨e | c, q⟩, tr⟩
  · rfl
  · exact ⟨fun _ => nofun, fun _ => nofun⟩

namespace Machine.Clears
variable {builders : QueryBuilder → Prop} {ws us : List Work} {q : Query} {tr : Trace}

theorem const (p : Place) (b : Bool) :
    Clears s builders [⟨if b then .true else .false, p⟩] q tr ((.ok (.literal b), q), tr) :=
  ⟨1, fun _ _ fuel rest results => by cases b <;> cases results <;> rfl⟩

/-- A leaf that all builders reduce alike, followed by what stands in its stead. -/
theorem leaf {l : Leaf} {p : Place} {items : List Work} {step : Step} {q' : Query} {tr' : Trace}
    {o : (Except Stop Cond × Query) × Trace}
    (hreduce : ∀ build, builders build → (reduce s build l p).run tr = (.ok step, tr'))
    (htake : ∀ rest results, take q results rest step = ⟨items.reverse ++ rest, results, q'⟩)
    (h : Clears s builders items q' tr' o) : Clears s builders [⟨.leaf l, p⟩] q tr o := by
  obtain ⟨n, hn⟩ := h
  refine ⟨n + 1, fun build hbuild fuel rest results => ?_⟩
  refine (outcome_leaf (fuel + n) l p rest results q tr).trans ?_
  rw [hreduce build hbuild]
  dsimp only
  rw [htake]
  exact hn build hbuild fuel rest results

theorem not {o : (Except Stop Cond × Query) × Trace} (p : Place) (h : Clears s builders ws q tr o) :
    Clears s builders (⟨.not, p⟩ :: ws) q tr (negated o) := by
  obtain ⟨n, hn⟩ := h
  refine ⟨n + 1, fun build hbuild fuel rest results => ?_⟩
  rw [work_not, Nat.add_comm n, ← Nat.add_assoc, hn build hbuild]
  rcases o with ⟨⟨e | c, q'⟩, tr'⟩ <;> rfl

/-- An operator with two parts, where the part on the right has a condition only if the part on the left comes up. -/
theorem combined {token : Work} {op : Cond → Cond → Cond}
    {left right : Query → Trace → (Except Stop Cond × Query) × Trace}
    (hstep : ∀ build fuel rest results a b q tr,
      outcome s build (fuel + 1) ⟨token :: rest, a :: b :: results, q⟩ tr =
        outcome s build fuel ⟨rest, op a b :: results, q⟩ tr)
    (hright : Clears s builders us q tr (right q tr))
    (hleft : ∀ b q' tr', right q tr = ((.ok b, q'), tr') → Clears s builders ws q' tr' (left q' tr')) :
    Clears s builders (token :: (ws ++ us)) q tr (Compile.combined op left right q tr) := by
  obtain ⟨n, hn⟩ := hright
  unfold Compile.combined
  rcases hr : right q tr with ⟨⟨e | b, q'⟩, tr'⟩
  · exact ⟨n, fun build hbuild fuel rest results => by rw [work_combined, hn build hbuild, hr]; rfl⟩
  · obtain ⟨n', hn'⟩ := hleft b q' tr' hr
    dsimp only
    rcases hl : left q' tr' with ⟨⟨e | a, q''⟩, tr''⟩
    · refine ⟨n' + n, fun build hbuild fuel rest results => ?_⟩
      rw [work_combined, ← Nat.add_assoc, hn build hbuild, hr]
      dsimp only [resume]
      rw [hn' build hbuild, hl]
      rfl
    · refine ⟨1 + n' + n, fun build hbuild fuel rest results => ?_⟩
      rw [work_combined, ← Nat.add_assoc, ← Nat.add_assoc, hn build hbuild, hr]
      dsimp only [resume]
      rw [hn' build hbuild, hl]
      exact hstep build fuel rest results a b q'' tr''

/-- With enough fuel, the compilation of a domain has the outcome of its tokens. -/
theorem compileOn {p : Place} {d e : Domain} {o : (Except Stop Cond × Query) × Trace}
    (hd : Domain.distributeNot d = .ok e) (h : Clears s builders (Work.ofDomain p e) q tr o) :
    ∃ bound, ∀ fuel ≥ bound, ∀ build, builders build → (Compiler.compileOn s build fuel p d q).run tr = o := by
  obtain ⟨n, hn⟩ := h
  refine ⟨n, fun fuel hfuel build hbuild => ?_⟩
  obtain ⟨left, rfl⟩ := Nat.exists_eq_add_of_le' hfuel
  have hout := hn build hbuild left [] []
  rw [resume_nil, ← start_eq] at hout
  unfold Compiler.compileOn
  rw [hd]
  exact hout

end Machine.Clears

/-- Where the recursion finishes, the machine does the tree that the work spells in some number of steps,
    whatever waits below. -/
def Machine.Does (s : Setting) (build : QueryBuilder) (depth : Nat) (ws : List Work) (t : Tree) : Prop :=
  ∀ q tr, Finished (treeOutcome s build depth t q tr) →
    ∃ n, ∀ fuel rest results, outcome s build (fuel + n) ⟨ws.reverse ++ rest, results, q⟩ tr =
      resume s build fuel rest results (treeOutcome s build depth t q tr)

namespace Machine.Does

theorem clears {depth : Nat} {ws : List Work} {t : Tree} (h : Does s build depth ws t) {q : Query} {tr : Trace}
    (hfin : Finished (treeOutcome s build depth t q tr)) :
    Clears s (· = build) ws q tr (treeOutcome s build depth t q tr) := by
  obtain ⟨n, hn⟩ := h q tr hfin
  exact ⟨n, fun build' hbuild => hbuild ▸ hn⟩

theorem const {depth : Nat} {b : Bool} {token : Token} (p : Place) (htoken : token = if b then .true else .false) :
    Does s build depth [⟨token, p⟩] (.const b) := by
  intro q tr _
  subst htoken
  obtain ⟨n, hn⟩ : Clears s (· = build) _ q tr _ := .const p b
  exact ⟨n, hn build rfl⟩

theorem leaf {depth : Nat} (l : Leaf) (p : Place) (ih : ∀ {ws t}, Spells ws t → Does s build depth ws t) :
    Does s build (depth + 1) [⟨.leaf l, p⟩] (.leaf (l, p)) := by
  intro q tr hfin
  rcases leaf_cases s build depth l p q tr with
    ⟨e, tr', -, htree, hstep⟩ | ⟨c, tr', htree, hstep⟩ | ⟨items, t, q', tr', ht, htree, hstep⟩
  · rw [htree]
    exact ⟨1, hstep⟩
  · rw [htree]
    exact ⟨1, hstep⟩
  · rw [htree] at hfin ⊢
    obtain ⟨n, hn⟩ := ih ht q' tr' hfin
    exact ⟨n + 1, fun fuel rest results => (hstep (fuel + n) rest results).trans (hn fuel rest results)⟩

theorem not {depth : Nat} {ws : List Work} {t : Tree} (p : Place) (h : Does s build depth ws t) :
    Does s build depth (⟨.not, p⟩ :: ws) (.not t) := by
  intro q tr hfin
  have hnot : treeOutcome s build depth (.not t) q tr = negated (treeOutcome s build depth t q tr) :=
    treeOutcome_not depth t q tr
  rw [hnot, finished_negated] at hfin
  obtain ⟨n, hn⟩ := (h.clears hfin).not p
  rw [hnot]
  exact ⟨n, hn build rfl⟩

theorem combined {depth : Nat} {ws us : List Work} {a b t : Tree} {token : Work} {op : Cond → Cond → Cond}
    (hstep : ∀ build fuel rest results a b q tr,
      outcome s build (fuel + 1) ⟨token :: rest, a :: b :: results, q⟩ tr =
        outcome s build fuel ⟨rest, op a b :: results, q⟩ tr)
    (htree : treeOutcome s build depth t =
      Compile.combined op (treeOutcome s build depth a) (treeOutcome s build depth b))
    (ha : Does s build depth ws a) (hb : Does s build depth us b) : Does s build depth (token :: (ws ++ us)) t := by
  intro q tr hfin
  rw [htree] at hfin ⊢
  obtain ⟨hright, hleft⟩ := finished_combined.mp hfin
  obtain ⟨n, hn⟩ := Clears.combined hstep (hb.clears hright) fun _ q' tr' hr => ha.clears (hleft _ q' tr' hr)
  exact ⟨n, hn build rfl⟩

end Machine.Does

theorem Spells.does_of_leaf {depth : Nat}
    (hleaf : ∀ l p, Machine.Does s build depth [⟨.leaf l, p⟩] (.leaf (l, p))) {ws : List Work} {t : Tree}
    (h : Spells ws t) : Machine.Does s build depth ws t := by
  induction h with
  | always p => exact .const p rfl
  | never p => exact .const p rfl
  | leaf l p => exact hleaf l p
  | not p _ ih => exact ih.not p
  | and p _ _ iha ihb => exact .combined (fun _ _ _ _ _ _ _ _ => rfl) (treeOutcome_and _ _ _) iha ihb
  | or p _ _ iha ihb => exact .combined (fun _ _ _ _ _ _ _ _ => rfl) (treeOutcome_or _ _ _) iha ihb

theorem Spells.does {ws : List Work} {t : Tree} (h : Spells ws t) (depth : Nat) : Machine.Does s build depth ws t := by
  induction depth generalizing ws t with
  | zero =>
    refine h.does_of_leaf fun l p q tr hfin => ?_
    exact absurd rfl hfin
  | succ depth ih => exact h.does_of_leaf fun l p => .leaf l p ih

/-! ### Texts -/

/-- Putting parts together one way is putting them together the other way and then applying `f`. -/
structure Assembly.Maps {γ : Type} (f : β → γ) (k : Assembly β) (k' : Assembly γ) : Prop where
  emit : ∀ c, k'.emit c = f (k.emit c)
  literal : ∀ b, k'.literal b = f (k.literal b)
  not : ∀ a, k'.not (f a) = f (k.not a)
  and : ∀ a b, k'.and (f a) (f b) = f (k.and a b)
  or : ∀ a b, k'.or (f a) (f b) = f (k.or a b)

namespace Assembly.Maps
variable {γ : Type} {f : β → γ} {k : Assembly β} {k' : Assembly γ}

theorem term (h : Maps f k k') {leaf : α → Building β} {leaf' : α → Building γ} (hleaf : ∀ a, leaf' a = f <$> leaf a)
    (t : Term α) : k'.term leaf' t = f <$> k.term leaf t := by
  induction t with
  | const b => simp [Assembly.term, h.literal]
  | leaf a => exact hleaf a
  | not t ih => simp [Assembly.term, ih, h.not]
  | and a b iha ihb => simp [Assembly.term, iha, ihb, h.and]
  | or a b iha ihb => simp [Assembly.term, iha, ihb, h.or]

theorem work (h : Maps f k k') {leaf : Leaf × Place → Building β} {leaf' : Leaf × Place → Building γ}
    (hleaf : ∀ x, leaf' x = f <$> leaf x) (items : List Work) : k'.work leaf' items = f <$> k.work leaf items := by
  unfold Assembly.work
  split
  · exact h.term hleaf _
  · rfl

theorem leaf (h : Maps f k k') (depth : Nat) (x : Leaf × Place) :
    k'.leaf s build depth x = f <$> k.leaf s build depth x := by
  induction depth generalizing x with
  | zero => rfl
  | succ depth ih =>
    simp only [Assembly.leaf, map_bind]
    congr 1
    funext step
    cases step with
    | emit c => simp [h.emit]
    | requeue items => exact h.work ih items
    | follow join item => simp [h.work ih]

theorem domain (h : Maps f k k') (depth : Nat) (p : Place) (d : Domain) :
    k'.domain s build depth p d = f <$> k.domain s build depth p d := by
  unfold Assembly.domain
  split
  · rfl
  · exact h.work (h.leaf depth) _

end Assembly.Maps

/-- The text of a condition is put together like the condition itself. -/
theorem conditions_maps_texts : Assembly.conditions.Maps Cond.fragment Assembly.texts where
  emit _ := rfl
  literal _ := rfl
  not a := by
    show (Assembly.texts.not a.fragment) = (Cond.not a).fragment
    rw [Cond.fragment, Fragment.negate, Fragment.ext_iff]
    simp [Assembly.texts]
  and a b := by
    show (Assembly.texts.and a.fragment b.fragment) = (Cond.and a b).fragment
    rw [Cond.fragment, Fragment.and, Fragment.join, Fragment.ext_iff]
    simp [Assembly.texts]
  or a b := by
    show (Assembly.texts.or a.fragment b.fragment) = (Cond.or a b).fragment
    rw [Cond.fragment, Fragment.or, Fragment.join, Fragment.ext_iff]
    simp [Assembly.texts]

/-! ### The whole -/

/-- The recursion over a domain is that over the tree that the domain spells, once its negations are distributed. -/
theorem domain_eq_term {d : Domain} {a : Term Leaf} (hd : Domain.distributeNot d = .ok a.spell) (depth : Nat) (p : Place) :
    Assembly.conditions.domain s build depth p d =
      Assembly.conditions.term (Assembly.conditions.leaf s build depth) (a.map (·, p)) := by
  rw [Assembly.domain, hd]
  exact (spells_ofDomain a p).work_eq _ _

/-- Where the loop finishes, it gives what the recursion gives: the condition or the error, the query and
    the trace. -/
theorem compileOn_eq_domain {fuel depth : Nat} (hfuel : fuel ≤ depth) (p : Place) (d : Domain) (q : Query) (tr : Trace)
    (hfin : Finished ((Compiler.compileOn s build fuel p d q).run tr)) :
    (Compiler.compileOn s build fuel p d q).run tr = (Assembly.conditions.domain s build depth p d).outcome q tr := by
  unfold Compiler.compileOn Assembly.domain at *
  cases he : Domain.distributeNot d with
  | error e => rfl
  | ok e =>
    obtain ⟨t, ht⟩ := spells_of_distributeNot he p
    simp only [he, Machine.start_eq, ht.work_eq] at hfin ⊢
    obtain ⟨left, -, hout⟩ := ht.mirrors depth fuel hfuel [] [] q tr hfin
    exact hout.trans (Machine.resume_nil left _)

/-- Where the recursion finishes, the loop does with enough fuel, and gives the same. -/
theorem domain_eq_compileOn {depth : Nat} (p : Place) (d : Domain) (q : Query) (tr : Trace)
    (hfin : Finished ((Assembly.conditions.domain s build depth p d).outcome q tr)) :
    ∃ bound, ∀ fuel ≥ bound,
      (Compiler.compileOn s build fuel p d q).run tr = (Assembly.conditions.domain s build depth p d).outcome q tr := by
  unfold Compiler.compileOn Assembly.domain at *
  cases he : Domain.distributeNot d with
  | error e => exact ⟨0, fun _ _ => rfl⟩
  | ok e =>
    obtain ⟨t, ht⟩ := spells_of_distributeNot he p
    simp only [he, Machine.start_eq, ht.work_eq] at hfin ⊢
    obtain ⟨n, hn⟩ := ht.does depth q tr hfin
    refine ⟨n, fun fuel hfuel => ?_⟩
    obtain ⟨left, rfl⟩ := Nat.exists_eq_add_of_le' hfuel
    exact (hn left [] []).trans (Machine.resume_nil left _)

/-! ### Queries -/

/-- A compilation into a query stops where the condition does, or adds the condition. -/
theorem compileWith_run (s : Setting) (build : QueryBuilder) {model : String} {m : Model}
    (hm : s.registry.model model = .ok m) (fuel : Nat) (d : Domain) (q : Query) (tr : Trace) :
    (Compiler.compileWith s build fuel model d q).run tr =
      match (Compiler.compileOn s build fuel ⟨m, q.tableAlias⟩ d q).run tr with
      | ((.ok c, q'), tr') => ((.ok (), q'.addCondition c), ((Compiler.noticeCompiled m d c q').run.run tr').2)
      | ((.error e, q'), tr') => ((.error e, q'), tr') := by
  unfold Compiler.compileWith
  rw [hm]
  show (StateT.run (Compiler.compileOn s build fuel ⟨m, q.tableAlias⟩ d q >>= _) tr) = _
  rw [StateT.run_bind]
  rcases (Compiler.compileOn s build fuel ⟨m, q.tableAlias⟩ d q).run tr with ⟨⟨e | c, q'⟩, tr'⟩ <;> rfl

/-- A compilation that succeeds has added the condition of its domain, and logged at most. -/
theorem compile_gives {c : Compiler} {fuel : Nat} {model : String} {d : Domain} {q q' : Query} {tr tr' : Trace}
    (h : (c.compile fuel model d q).run tr = ((.ok (), q'), tr')) :
    ∃ m cond q₁ tr₁, c.registry.model model = .ok m ∧
      (Compiler.compileOn (c.setting c.context) (c.queryIn fuel) fuel ⟨m, q.tableAlias⟩ d q).run tr =
        ((.ok cond, q₁), tr₁) ∧ q' = q₁.addCondition cond ∧ tr'.calls = tr₁.calls := by
  rcases hm : c.registry.model model with e | m
  · unfold Compiler.compile Compiler.compileWith at h
    rw [show (c.setting c.context).registry.model model = .error e from hm] at h
    cases h
  · have hwith := compileWith_run (c.setting c.context) (c.queryIn fuel) hm fuel d q tr
    rcases hon : (Compiler.compileOn (c.setting c.context) (c.queryIn fuel) fuel ⟨m, q.tableAlias⟩ d q).run tr with
      ⟨⟨stop | cond, q₁⟩, tr₁⟩ <;> rw [hon] at hwith <;> cases hwith.symm.trans h
    exact ⟨m, cond, q₁, tr₁, rfl, hon, rfl, rfl⟩

/-- What a query for a domain is, and why there is none, by the compilation of its domain. -/
theorem queryIn_meets {c : Compiler} {fuel : Nat} {ctx : Context} {model : String} {d : Domain} {P : Query → Prop}
    {E : Stop → Prop} (hmodel : ∀ e, c.registry.model model = .error e → E (.error e))
    (hactive : ∀ m e, withActive c.registry ctx m d = .error e → E (.error e))
    (hempty : ∀ m, c.registry.model model = .ok m → P (.ofTable m.table))
    (hgives : ∀ m d' q q' cond tr tr', c.registry.model model = .ok m → withActive c.registry ctx m d = .ok d' →
      q = .ofTable m.table →
      (Compiler.compileOn (c.setting ctx) (c.queryIn fuel) fuel ⟨m, q.tableAlias⟩ d' q).run tr = ((.ok cond, q'), tr') →
      P (q'.addCondition cond))
    (hstops : ∀ m d' q q' stop tr tr', c.registry.model model = .ok m →
      (Compiler.compileOn (c.setting ctx) (c.queryIn fuel) fuel ⟨m, q.tableAlias⟩ d' q).run tr = ((.error stop, q'), tr') →
      E stop) :
    (c.queryIn (fuel + 1) ctx model d).Meets P E := by
  unfold Compiler.queryIn
  refine .bind (P := (c.registry.model model = .ok ·)) (.ofExcept (fun _ h => h) hmodel) fun m hm => ?_
  refine .bind (P := (withActive c.registry ctx m d = .ok ·)) (.ofExcept (fun _ h => h) (hactive m)) fun d' hd => ?_
  split
  · exact .pure (hempty m hm)
  · refine .bind (P := fun o => match o.1 with | .ok () => P o.2 | .error stop => E stop) (.lift ?_) fun o ho => ?_
    · intro tr o tr' h
      rw [compileWith_run _ _ hm] at h
      rcases hon : (Compiler.compileOn (c.setting ctx) (c.queryIn fuel) fuel ⟨m, (Query.ofTable m.table).tableAlias⟩ d'
        (.ofTable m.table)).run tr with ⟨⟨stop | cond, q'⟩, tr₁⟩ <;> rw [hon] at h <;> cases h
      · exact hstops m d' _ _ _ _ _ hm hon
      · exact hgives m d' _ q' cond tr tr₁ hm hd rfl hon
    · obtain ⟨stop | ⟨⟩, q⟩ := o
      · exact .throw ho
      · exact .pure ho

/-! ### A compiler of tasks -/

/-- A model of tasks that are done or not. -/
def taskModel : Model := (Model.ofTable "task" "task").withField { name := "done", type := .boolean }

/-- A compiler for tasks, without a database. -/
def taskCompiler : Compiler where
  registry := { models := Keyed.empty.insert "task" taskModel }
  context := { lang := "en_US", unaccent := false, activeTest := false, maxIterations := 10
               attachmentTable := "ir_attachment" }

end RecordFilter.Compile
