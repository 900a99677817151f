import RecordFilter.Proofs.Compile.PlainLeaves
import RecordFilter.Proofs.Compile.Recursion

/-! Domains on plain columns, from one end to the other: on every row the condition that is compiled is true
    just where the domain is, its negations being those of Boolean logic. -/

namespace RecordFilter

/-- The condition of a term, given those of its leaves. -/
def Term.condition {α : Type} (f : α → Sql.Cond) : Term α → Sql.Cond
  | const b => .literal b
  | leaf a => f a
  | not t => .not (t.condition f)
  | and a b => .and (a.condition f) (b.condition f)
  | or a b => .or (a.condition f) (b.condition f)

/-- Without negations, a condition holds where the leaves that hold make the term true. -/
theorem Term.holds_condition {α V : Type} {e : Sql.Engine V} {row : Sql.Row V} (f : α → Sql.Cond) {t : Term α}
    (h : t.Positive) : ((t.condition f).truth e row).holds = t.eval fun a => ((f a).truth e row).holds := by
  induction t with
  | const b => exact Sql.Truth.holds_ofBool b
  | leaf a => rfl
  | not t _ => cases h
  | and a b iha ihb =>
    show ((_ : Sql.Truth).and _).holds = _
    rw [Sql.Truth.holds_and, iha h.1, ihb h.2]
    rfl
  | or a b iha ihb =>
    show ((_ : Sql.Truth).or _).holds = _
    rw [Sql.Truth.holds_or, iha h.1, ihb h.2]
    rfl

namespace Compile
open Sql

variable {s : Setting} {build : QueryBuilder}

/-- Where every leaf becomes a condition at once, the machine takes one step for each token. -/
theorem outcome_of_emit {f : Leaf → Cond} {p : Place} (t : Term Leaf)
    (h : ∀ l ∈ t.leaves, ∀ tr, (reduce s build l p).run tr = (.ok (.emit (f l)), tr)) (fuel : Nat) (rest : List Work)
    (results : List Cond) (q : Query) (tr : Trace) :
    Machine.outcome s build (fuel + t.spell.length) ⟨(Work.ofDomain p t.spell).reverse ++ rest, results, q⟩ tr =
      Machine.outcome s build fuel ⟨rest, t.condition f :: results, q⟩ tr := by
  induction t generalizing fuel rest results with
  | const b => cases b <;> cases results <;> rfl
  | leaf l =>
    refine (Machine.outcome_leaf fuel l p rest results q tr).trans ?_
    rw [h l (List.mem_singleton_self l)]
    rfl
  | not t ih =>
    have hfuel : fuel + (Term.not t).spell.length = fuel + 1 + t.spell.length := by
      simp [Term.spell]
      omega
    show Machine.outcome _ _ _ ⟨(_ :: Work.ofDomain p t.spell).reverse ++ rest, results, q⟩ tr = _
    rw [Machine.work_not, hfuel, ih h]
    rfl
  | and a b iha ihb | or a b iha ihb =>
    have ha := iha fun l hl => h l (List.mem_append_left _ hl)
    have hb := ihb fun l hl => h l (List.mem_append_right _ hl)
    have hwork : ∀ token, Work.ofDomain p (token :: (a.spell ++ b.spell)) =
        ⟨token, p⟩ :: (Work.ofDomain p a.spell ++ Work.ofDomain p b.spell) := by
      simp [Work.ofDomain]
    have hfuel : ∀ token : Token, fuel + (token :: (a.spell ++ b.spell)).length =
        fuel + 1 + a.spell.length + b.spell.length := by
      intro token
      simp only [List.length_cons, List.length_append]
      omega
    rw [Term.spell, hwork, Machine.work_combined, hfuel, hb, ha]
    rfl

/-- With fuel for its tokens, a domain whose leaves become conditions at once has the condition of its term. -/
theorem compileOn_of_emit {f : Leaf → Cond} {p : Place} {d : Domain} {t : Term Leaf}
    (hd : Domain.distributeNot d = .ok t.spell)
    (h : ∀ l ∈ t.leaves, ∀ tr, (reduce s build l p).run tr = (.ok (.emit (f l)), tr)) {fuel : Nat}
    (hfuel : t.spell.length ≤ fuel) (q : Query) (tr : Trace) :
    (Compiler.compileOn s build fuel p d q).run tr = ((.ok (t.condition f), q), tr) := by
  obtain ⟨left, rfl⟩ := Nat.exists_eq_add_of_le' hfuel
  unfold Compiler.compileOn
  rw [hd]
  show Machine.outcome s build _ (Machine.start p t.spell q) tr = _
  rw [Machine.start_eq, outcome_of_emit t h]
  exact Machine.outcome_nil left _ q tr

/-- A leaf on a plain column is emitted at once, and nothing is logged unless it is to be noticed. -/
theorem reduce_run_of_plain {l : Leaf} {p : Place} (hop : l.op ≠ .eqIfSet)
    (hkind : classify s.registry p.model l = .ok .plain) {c : Cond} (hc : plainCondition l p s.context = .ok c)
    (hnotice : leafNotice? l = none) (tr : Trace) : (Compile.reduce s build l p).run tr = (.ok (.emit c), tr) := by
  unfold Compile.reduce
  rw [if_neg hop, hkind]
  show (emitLeaf s l p).run tr = _
  unfold emitLeaf
  rw [hc, hnotice]
  rfl

theorem OnPlainColumn.reduce {l : Leaf} {p : Place} (h : OnPlainColumn s.registry p.model l) {c : Cond}
    (hc : plainCondition l p s.context = .ok c) (tr : Trace) :
    (Compile.reduce s build l p).run tr = (.ok (.emit c), tr) :=
  reduce_run_of_plain h.compares.ne_eqIfSet h.plain hc h.compares.leafNotice? tr

/-- The leaves of a domain that is compiled are those of the domain, or opposite to them. -/
theorem OnPlainColumn.inward {r : Registry} {p : Place} {t : Term Leaf} (h : ∀ l ∈ t.leaves, OnPlainColumn r p.model l)
    {negated : Bool} : ∀ l ∈ (t.inward negated).leaves, OnPlainColumn r p.model l := by
  intro l hl
  rcases Domain.of_mem_leaves_inward hl with hl | ⟨l', hl', op, hop, rfl⟩
  · exact h l hl
  · obtain ⟨op', hop', hc⟩ := (h l' hl').compares.negate?
    cases hop.symm.trans hop'
    exact (h l' hl').with_op hc

/-- The condition of a leaf that has one. -/
def leafCondition (ctx : Context) (p : Place) (l : Leaf) : Cond :=
  match plainCondition l p ctx with
  | .ok c => c
  | .error _ => .literal false

theorem OnPlainColumn.leafCondition {r : Registry} {p : Place} {l : Leaf} (h : OnPlainColumn r p.model l)
    (ctx : Context) : plainCondition l p ctx = .ok (leafCondition ctx p l) := by
  obtain ⟨op, hop, -⟩ := h.compares.negate?
  obtain ⟨c, -, hc, -⟩ := h.opposite ctx hop
  rw [Compile.leafCondition, hc]

/-- The condition of a leaf and that of its opposite have opposite values. -/
theorem OnPlainColumn.opposed {r : Registry} {p : Place} {l : Leaf} (h : OnPlainColumn r p.model l) (ctx : Context)
    {V : Type} (e : Engine V) (row : TableRow e p) :
    Domain.Opposed (fun l => ((Compile.leafCondition ctx p l).truth e row.columns).holds) l := by
  intro op hop
  obtain ⟨c, c', hc, hc', hopposite⟩ := h.opposite ctx hop
  simp only [Compile.leafCondition, hc, hc']
  exact hopposite e row

/-- A domain on plain columns compiles, and on every row its condition is true where the domain is: where the
    truth of the leaves' own conditions makes the domain true, with `!` as Boolean negation. -/
theorem compile_plain (c : Compiler) {model : String} {m : Model} (hm : c.registry.model model = .ok m)
    {d n : Domain} (hd : Domain.normalize d = .ok n) (hplain : ∀ l ∈ d.leaves, OnPlainColumn c.registry m l) (q : Query) :
    ∃ cond, (∀ fuel ≥ n.length, ∀ tr, ∃ tr',
        (c.compile fuel model d q).run tr = ((.ok (), q.addCondition cond), tr')) ∧
      ∀ {V : Type} (e : Engine V) (row : TableRow e ⟨m, q.tableAlias⟩),
        let holds : Cond → Bool := fun c => (c.truth e row.columns).holds
        Domain.value? (fun l => holds (leafCondition c.context ⟨m, q.tableAlias⟩ l)) d = some (holds cond) ∧
          holds (q.addCondition cond).condition = (holds q.condition && holds cond) := by
  obtain ⟨ts, hts, rfl⟩ := Domain.normalize_eq_ok hd
  have hleaves : ∀ l ∈ (Term.conj ts).leaves, OnPlainColumn c.registry m l := Domain.leaves_of_terms? hts ▸ hplain
  have hnegate : ∀ l ∈ (Term.conj ts).leaves, ∃ op, l.op.negate? = some op := fun l hl => by
    obtain ⟨op, hop, -⟩ := (hleaves l hl).compares.negate?
    exact ⟨op, hop⟩
  let p : Place := ⟨m, q.tableAlias⟩
  let t := (Term.conj ts).inward false
  have ht : ∀ l ∈ t.leaves, OnPlainColumn c.registry p.model l := OnPlainColumn.inward hleaves
  refine ⟨t.condition (leafCondition c.context p), fun fuel hfuel tr => ?_, fun e row => ⟨?_, ?_⟩⟩
  · have hlength : t.spell.length ≤ fuel := Nat.le_trans (Domain.length_inward_le hnegate) hfuel
    have hemit : ∀ l ∈ t.leaves, ∀ tr, (Compile.reduce (c.setting c.context) (c.queryIn fuel) l p).run tr =
        (.ok (.emit (leafCondition c.context p l)), tr) := fun l hl =>
      (ht l hl).reduce ((ht l hl).leafCondition c.context)
    have hon := compileOn_of_emit (Domain.distributeNot_of_terms? hts) hemit hlength q tr
    have hwith := compileWith_run (c.setting c.context) (c.queryIn fuel) hm fuel d q tr
    rw [hon] at hwith
    exact ⟨_, hwith⟩
  · have hopposed : ∀ l ∈ (Term.conj ts).leaves,
        Domain.Opposed (fun l => ((leafCondition c.context p l).truth e row.columns).holds) l := fun l hl =>
      (hleaves l hl).opposed (p := p) c.context e row
    have hcond : ((t.condition (leafCondition c.context p)).truth e row.columns).holds =
        (Term.conj ts).eval fun l => ((leafCondition c.context p l).truth e row.columns).holds := by
      rw [Term.holds_condition _ (Domain.positive_inward hnegate), Domain.eval_inward _ false hopposed, Bool.bne_false]
    rw [Domain.value?_of_terms? hts]
    exact congrArg some hcond.symm
  · exact holds_condition_addCondition e row.columns q _

/-- Tasks that are not both done and one of two: on a column of booleans and one of numbers. -/
theorem compile_plain_tasks :
    let d : Domain := [.not, .and, .leaf ⟨"done", .eq, .value (.bool true)⟩,
      .leaf ⟨"id", .within, .value (.arr [.int 1, .int 2])⟩]
    taskCompiler.registry.model "task" = .ok taskModel ∧ Domain.normalize d = .ok d ∧
      (∀ l ∈ d.leaves, OnPlainColumn taskCompiler.registry taskModel l) ∧
      ∃ cond tr', (taskCompiler.compile 4 "task" d (.ofTable "task")).run {} =
        ((.ok (), (Query.ofTable "task").addCondition cond), tr') := by
  intro d
  have hplain : ∀ l ∈ d.leaves, OnPlainColumn taskCompiler.registry taskModel l := by
    intro l hl
    rcases List.mem_cons.mp hl with rfl | hl
    · exact ⟨rfl, .equal (Or.inl rfl) rfl rfl⟩
    · rw [List.mem_singleton.mp hl]
      refine ⟨rfl, .list (Or.inl rfl) fun v hv => ?_⟩
      rcases List.mem_cons.mp hv with rfl | hv
      · rfl
      · rw [List.mem_singleton.mp hv]
        rfl
  have hm : taskCompiler.registry.model "task" = .ok taskModel := rfl
  obtain ⟨cond, hrun, -⟩ := compile_plain taskCompiler hm (d := d) rfl hplain (.ofTable "task")
  obtain ⟨tr', h⟩ := hrun 4 (Nat.le_refl 4) {}
  exact ⟨rfl, rfl, hplain, cond, tr', h⟩

end Compile
end RecordFilter
