import RecordFilter.Proofs.Compile.Balance
import RecordFilter.Proofs.Compile.Faults
import RecordFilter.Proofs.Compile.Settling
import RecordFilter.Proofs.Domain.Leaves
import RecordFilter.Proofs.Domain.Verdicts

/-! Unknown fields. A compilation that succeeds has come to every leaf of its domain, on both sides of each operator,
    and to each of them the same leaf or the one with the opposite operator. So a field that cannot be found lets no
    domain pass, wherever the leaf stands. Only a leaf that asks with `=?` for an unset value holds before its field
    is looked up. A search fails with the query on errors of this kind, but finds nothing without a look at the leaves
    where the domain is false by itself, and that is where the domain that is compiled for it is. -/

namespace RecordFilter.Compile
open Sql

variable {s : Setting} {build : QueryBuilder} {r : Registry} {m : Model} {l : Leaf} {p : Place}

/-- The field at the head of the leaf's path cannot be found, and it has to be: the leaf does not hold as it is. -/
structure Unknown (r : Registry) (m : Model) (l : Leaf) : Prop where
  unresolved : r.resolve? m l.path.1 = none
  asked : ¬(l.op = .eqIfSet ∧ l.right.isUnset)

namespace Unknown

theorem classify (h : Unknown r m l) : classify r m l = .error (.invalidField m.name l.left l.text) := by
  simp only [Compile.classify, h.unresolved]

/-- With another operator that asks for the field, the leaf is unknown too. -/
theorem withOp (h : Unknown r m l) {op : Operator} (hop : op ≠ .eqIfSet) : Unknown r m { l with op := op } :=
  ⟨h.unresolved, fun hasked => hop hasked.1⟩

/-- Negations are moved past it. -/
theorem inward (h : Unknown r m l) {t : Term Leaf} (hl : l ∈ t.leaves) (negated : Bool) :
    ∃ l' ∈ (t.inward negated).leaves, Unknown r m l' := by
  rcases Domain.mem_leaves_inward negated hl with hl | ⟨op, hop, hl⟩
  · exact ⟨l, hl, h⟩
  · refine ⟨_, hl, h.withOp ?_⟩
    rintro rfl
    cases Operator.negate?_symm hop

/-- It is rejected when its turn comes. -/
theorem reduce (h : Unknown s.registry p.model l) (hop : l.op ≠ .eqIfSet) (t : Trace) :
    (reduce s build l p).run t = (.error (.error (.invalidField p.model.name l.left l.text)), t) := by
  unfold Compile.reduce
  rw [if_neg hop, h.classify]
  rfl

theorem treeOutcome_ne_ok (h : Unknown s.registry p.model l) (depth : Nat) (q : Query) (tr : Trace) {c : Cond}
    {q' : Query} {tr' : Trace} : treeOutcome s build depth (.leaf (l, p)) q tr ≠ ((.ok c, q'), tr') := by
  intro hok
  induction depth generalizing l q tr with
  | zero => cases hok
  | succ depth ih =>
    obtain ⟨step, tr₁, hgives, hstep⟩ := treeOutcome_leaf_ok hok
    by_cases hop : l.op = .eqIfSet
    · -- The value is set, so the leaf comes up once more with `=`.
      unfold Compile.reduce at hgives
      rw [if_pos hop, if_neg fun hunset => h.asked ⟨hop, hunset⟩] at hgives
      cases hgives
      rcases hstep with ⟨heq, -⟩ | ⟨items, heq, htree⟩ | ⟨join, item, heq, -⟩ <;> cases heq
      have hequal : Unknown s.registry p.model { l with op := .eq } := h.withOp nofun
      exact ih hequal _ _ (htree _ (.leaf _ p))
    · rw [Run.Gives, h.reduce hop] at hgives
      cases hgives

end Unknown

/-- Where a tree has a condition, each of its leaves has had one. -/
theorem treeOutcome_leaves {depth : Nat} {t : Tree} {q q' : Query} {tr tr' : Trace} {c : Cond}
    (h : treeOutcome s build depth t q tr = ((.ok c, q'), tr')) : ∀ x ∈ t.leaves,
      ∃ q₁ tr₁ c₁ q₂ tr₂, treeOutcome s build depth (.leaf x) q₁ tr₁ = ((.ok c₁, q₂), tr₂) := by
  induction t generalizing q tr c q' tr' with
  | const b =>
    intro x hx
    cases hx
  | leaf x =>
    intro x' hx'
    rw [List.mem_singleton.mp hx']
    exact ⟨q, tr, c, q', tr', h⟩
  | not t ih =>
    obtain ⟨c₁, -, ht⟩ := treeOutcome_not_ok h
    exact ih ht
  | and a b iha ihb =>
    rw [treeOutcome_and] at h
    obtain ⟨_, _, _, _, hright, hleft, -⟩ := combined_ok h
    exact fun x hx => (List.mem_append.mp hx).elim (iha hleft x) (ihb hright x)
  | or a b iha ihb =>
    rw [treeOutcome_or] at h
    obtain ⟨_, _, _, _, hright, hleft, -⟩ := combined_ok h
    exact fun x hx => (List.mem_append.mp hx).elim (iha hleft x) (ihb hright x)

theorem compileOn_known {fuel : Nat} {d : Domain} {q q' : Query} {t t' : Trace} {c : Cond}
    (h : (Compiler.compileOn s build fuel p d q).run t = ((.ok c, q'), t')) (hl : l ∈ d.leaves) :
    ¬Unknown s.registry p.model l := by
  intro hunknown
  have hfin : Finished ((Compiler.compileOn s build fuel p d q).run t) := by
    rw [h]
    exact nofun
  have htree := compileOn_eq_domain (Nat.le_refl fuel) p d q t hfin
  rw [h] at htree
  cases hd : Domain.distributeNot d with
  | error e =>
    unfold Compiler.compileOn at h
    rw [hd] at h
    cases h
  | ok e =>
    obtain ⟨ts, hts, rfl⟩ := Domain.distributeNot_eq_ok hd
    rw [domain_eq_term hd] at htree
    obtain ⟨l', hl', hunknown'⟩ := hunknown.inward (Domain.leaves_of_terms? hts ▸ hl) false
    have hmem : (l', p) ∈ (((Term.conj ts).inward false).map (·, p)).leaves := by
      rw [Term.leaves_map]
      exact List.mem_map_of_mem hl'
    obtain ⟨q₁, tr₁, c₁, q₂, tr₂, hleaf⟩ := treeOutcome_leaves htree.symm _ hmem
    exact hunknown'.treeOutcome_ne_ok fuel q₁ tr₁ hleaf

/-! ### Requests -/

variable {c : Compiler} {model : String} {d : Domain}

/-- A domain with a leaf on a field that cannot be found on the model never compiles, whatever the operator and the
    value of that leaf, the rest of the domain, the query and the database; nor has it a query of its own. Only a leaf
    that asks with `=?` for an unset value is excepted. -/
theorem unknown_field_rejected (hm : c.registry.model model = .ok m) (hl : l ∈ d.leaves)
    (hunknown : c.registry.resolve? m l.path.1 = none) (hasked : ¬(l.op = .eqIfSet ∧ l.right.isUnset)) :
    (∀ fuel q t q' t', (c.compile fuel model d q).run t ≠ ((.ok (), q'), t')) ∧
      ∀ fuel t q t', ¬(c.query fuel model d).Gives t q t' := by
  refine ⟨fun fuel q t q' t' h => ?_, fun fuel t q t' h => ?_⟩
  · obtain ⟨m', cond, q₁, t₁, hm', hon, -⟩ := compile_gives h
    cases hm.symm.trans hm'
    exact compileOn_known hon hl ⟨hunknown, hasked⟩
  · cases fuel with
    | zero => cases h
    | succ fuel =>
      obtain ⟨m', e, hm', he, hquery⟩ := queryIn_gives h
      cases hm.symm.trans hm'
      have hl' : l ∈ e.leaves := mem_leaves_withActive he hl
      rcases hquery with ⟨rfl, -⟩ | ⟨-, cond, q', tr', hon, -⟩
      · cases hl'
      · exact compileOn_known hon hl' ⟨hunknown, hasked⟩

/-- A misspelt field in a negated disjunction, beside a leaf on a field that is there. -/
theorem unknown_field_rejected_tasks :
    let l : Leaf := ⟨"doen", .eq, .value (.bool true)⟩
    let d : Domain := [.not, .or, .leaf ⟨"done", .eq, .value (.bool true)⟩, .leaf l]
    taskCompiler.registry.model "task" = .ok taskModel ∧ l ∈ d.leaves ∧
      taskCompiler.registry.resolve? taskModel l.path.1 = none ∧
      (∀ fuel q t q' t', (taskCompiler.compile fuel "task" d q).run t ≠ ((.ok (), q'), t')) ∧
      ∀ fuel t q t', ¬(taskCompiler.query fuel "task" d).Gives t q t' := by
  intro l d
  have hl : l ∈ d.leaves := List.mem_cons_of_mem _ (List.mem_singleton_self l)
  have hunknown : taskCompiler.registry.resolve? taskModel l.path.1 = none := by decide +kernel
  exact ⟨rfl, hl, hunknown, unknown_field_rejected rfl hl hunknown nofun⟩

/-- With `=?` and an unset value, the misspelt field passes: every record is selected. -/
theorem unknown_field_passes :
    let l : Leaf := ⟨"doen", .eqIfSet, .value (.bool false)⟩
    taskCompiler.registry.Valid ∧ taskCompiler.registry.model "task" = .ok taskModel ∧
      taskCompiler.registry.resolve? taskModel l.path.1 = none ∧
      (∃ q t, (taskCompiler.compile 9 "task" [.leaf l] (.ofTable "task")).run {} = ((.ok (), q), t) ∧
        q.conditions = [.literal true]) ∧
      ∃ q t, (taskCompiler.query 9 "task" [.leaf l]).Gives {} q t ∧ q.conditions = [.literal true] :=
  ⟨valid_tasks, rfl, by decide +kernel, ⟨_, _, rfl, rfl⟩, _, _, rfl, rfl⟩

/-! ### Searches -/

/-- Looking at the tokens alone, only structural errors come up. -/
theorem isStructural_of_isFalse {e : Error} (h : d.isFalse = .error e) : e.isStructural := (isFalse_error h).isStructural

/-- A search begins with the tokens: an error in them ends it, and so does a domain that is false by itself. Else it
    goes the way of the query. -/
theorem run_search (c : Compiler) (fuel : Nat) (model : String) (d : Domain) (t : Trace) :
    (c.search fuel model d).run t = match d.isFalse with
      | .error e => (.error (.error e), t)
      | .ok true => (.ok .nothing, t)
      | .ok false => match (c.query fuel model d).run t with
        | (.ok q, t') => (.ok (.rows (inIdOrder q)), t')
        | (.error stop, t') => (.error stop, t') := by
  unfold Compiler.search findWith
  rw [Run.run_bind]
  cases hfalse : d.isFalse with
  | error e => rfl
  | ok known =>
    cases known
    · show (c.query fuel model d >>= fun q => pure (Found.rows (inIdOrder q))).run t = _
      rw [Run.run_bind]
      rcases (c.query fuel model d).run t with ⟨_ | _, _⟩ <;> rfl
    · rfl

/-- A search finds nothing for certain only where the domain is false by itself, and then it asks for nothing. -/
theorem search_gives_nothing {fuel : Nat} {t t' : Trace} :
    (c.search fuel model d).Gives t .nothing t' ↔ d.isFalse = .ok true ∧ t' = t := by
  rw [Run.Gives, run_search]
  constructor
  · intro h
    split at h
    · cases h
    · cases h
      exact ⟨‹_›, rfl⟩
    · split at h <;> cases h
  · rintro ⟨hfalse, rfl⟩
    rw [hfalse]

/-- A domain, its normal form and the form of it with negations moved to the leaves are false by themselves alike: where
    the verdict on the term that they spell says so. So a search, which looks at the domain as it comes, is over at once
    for all three or for none of them, and all three are compiled as the last one is. -/
theorem isFalse_distributed {n : Domain} (hn : d.normalize = .ok n) :
    ∃ e ts, d.distributeNot = .ok e ∧ d.terms? = some ts ∧ ∀ x ∈ [d, n, e],
      x.isFalse = .ok ((Term.conj ts).verdict = .never) ∧
      (∀ (c : Compiler) fuel model t t', (c.search fuel model x).Gives t .nothing t' ↔
        (Term.conj ts).verdict = .never ∧ t' = t) ∧
      ∀ s build fuel p q, Compiler.compileOn s build fuel p x q = Machine.run s build fuel (Machine.start p e q) := by
  obtain ⟨ts, hts, rfl⟩ := Domain.normalize_eq_ok hn
  have hd := Domain.distributeNot_of_terms? hts
  have hn' := Domain.distributeNot_of_terms? (Domain.terms?_spell (Term.conj ts))
  refine ⟨((Term.conj ts).inward false).spell, ts, hd, hts, ?_⟩
  have hforms : ∀ x ∈ [d, (Term.conj ts).spell, ((Term.conj ts).inward false).spell],
      x.isFalse = d.isFalse ∧ x.distributeNot = .ok ((Term.conj ts).inward false).spell :=
    List.forall_mem_cons.mpr ⟨⟨rfl, hd⟩, List.forall_mem_cons.mpr ⟨⟨Domain.isFalse_normalize hn, hn'⟩,
      List.forall_mem_singleton.mpr ⟨Domain.isFalse_distributeNot hd, Domain.distributeNot_spell_inward _ false⟩⟩⟩
  intro x hx
  obtain ⟨hfalse, hinward⟩ := hforms x hx
  rw [Domain.isFalse_of_terms? hts] at hfalse
  refine ⟨hfalse, fun c fuel model t t' => ?_, fun s build fuel p q => ?_⟩
  · rw [search_gives_nothing, hfalse]
    simp
  · unfold Compiler.compileOn
    rw [hinward]

/-- A `!` before a disjunction that holds for all records: one leaf is `not in` an empty set, the other keeps its `!`. -/
theorem isFalse_distributed_negated :
    let kept : Leaf := ⟨"parent", .childOf, .value (.int 1)⟩
    let d : Domain := [.not, .or, .leaf ⟨"id", .notIn, .value (.arr [])⟩, .leaf kept]
    let e : Domain := [.and, .leaf ⟨"id", .within, .value (.arr [])⟩, .not, .leaf kept]
    d.normalize = .ok d ∧ d.distributeNot = .ok e ∧ d.isFalse = .ok true ∧ e.isFalse = .ok true ∧
      (taskCompiler.search 9 "task" d).Gives {} .nothing {} := by
  intro kept d e
  obtain ⟨e', ts, he, hts, hforms⟩ := isFalse_distributed (d := d) rfl
  obtain rfl : e' = e := Except.ok.inj (he.symm.trans rfl)
  obtain rfl : ts = [.not (.or (.leaf ⟨"id", .notIn, .value (.arr [])⟩) (.leaf kept))] :=
    Option.some.inj (hts.symm.trans rfl)
  have hd := hforms d List.mem_cons_self
  exact ⟨rfl, he, hd.1, (hforms e (by simp)).1, (hd.2.1 taskCompiler 9 "task" {} {}).mpr ⟨rfl, rfl⟩⟩

/-- Where the query of a domain stops with a structural error, a search for its records stops with a structural error
    too, unless the domain is false by itself. It is the same error after the same calls, or one that the tokens alone
    show. A domain that is false by itself has no records, whatever its leaves and its model. -/
theorem search_surfaces (c : Compiler) {fuel : Nat} {model : String} {d : Domain} {t t' : Trace} {e : Error}
    (hquery : (c.query fuel model d).Stops t (.error e) t') (he : e.isStructural) :
    (d.isFalse ≠ .ok true → ∃ e' t₁, (c.search fuel model d).Stops t (.error e') t₁ ∧ e'.isStructural ∧
        (d.isFalse = .error e' ∧ t₁ = t ∨ d.isFalse = .ok false ∧ e' = e ∧ t₁ = t')) ∧
      (d.isFalse = .ok true → (c.search fuel model d).Gives t .nothing t) := by
  have hrun := run_search c fuel model d t
  constructor
  · intro hopen
    cases hfalse : d.isFalse with
    | error e' =>
      rw [hfalse] at hrun
      exact ⟨e', t, hrun, isStructural_of_isFalse hfalse, .inl ⟨rfl, rfl⟩⟩
    | ok known =>
      cases known
      · rw [hfalse, show (c.query fuel model d).run t = (.error (.error e), t') from hquery] at hrun
        exact ⟨e, t', hrun, he, .inr ⟨rfl, rfl, rfl⟩⟩
      · exact absurd hfalse hopen
  · intro hfalse
    rw [hfalse] at hrun
    exact hrun

/-- A misspelt field beside a leaf that holds nothing, in a disjunction. -/
theorem search_surfaces_misspelt :
    let d : Domain := [.or, .leaf ⟨"id", .within, .value (.arr [])⟩, .leaf ⟨"doen", .eq, .value (.bool true)⟩]
    let e : Error := .invalidField "task" "doen" "('doen', '=', true)"
    (∃ t', (taskCompiler.query 9 "task" d).Stops {} (.error e) t') ∧ e.isStructural ∧ d.isFalse ≠ .ok true ∧
      ∃ e' t', (taskCompiler.search 9 "task" d).Stops {} (.error e') t' ∧ e'.isStructural := by
  intro d e
  have hopen : d.isFalse ≠ .ok true := by
    rw [show d.isFalse = .ok false from rfl]
    nofun
  obtain ⟨t', hquery⟩ : ∃ t', (taskCompiler.query 9 "task" d).Stops {} (.error e) t' := ⟨_, rfl⟩
  obtain ⟨e', t₁, hsearch, he', -⟩ := (search_surfaces taskCompiler hquery rfl).1 hopen
  exact ⟨⟨t', hquery⟩, rfl, hopen, e', t₁, hsearch, he'⟩

/-- In a domain that is false by itself, a misspelt field stops the query but not the search. -/
theorem search_hides_misspelt :
    ¬∀ (c : Compiler) (fuel : Nat) (model : String) (d : Domain) (t t' : Trace) (e : Error),
      (c.query fuel model d).Stops t (.error e) t' → e.isStructural →
        ∃ e' t₁, (c.search fuel model d).Stops t (.error e') t₁ ∧ e'.isStructural := by
  intro hall
  obtain ⟨e', t₁, hsearch, -⟩ := hall taskCompiler 9 "task" [.leaf ⟨"doen", .within, .value (.arr [])⟩] {} _
    (.invalidField "task" "doen" "('doen', 'in', [])") rfl rfl
  have hgives : (taskCompiler.search 9 "task" [.leaf ⟨"doen", .within, .value (.arr [])⟩]).run {} = (.ok .nothing, {}) := rfl
  cases hgives.symm.trans hsearch

end RecordFilter.Compile
