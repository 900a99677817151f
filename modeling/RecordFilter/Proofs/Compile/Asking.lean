import RecordFilter.Proofs.Compile.Faults
import RecordFilter.Proofs.Compile.Kinds
import RecordFilter.Proofs.Compile.Operands
import RecordFilter.Proofs.Domain.Paths

/-! What the reduction of a leaf asks the builder of queries for, over a registry that was accepted and has no search
    hooks: the rest of the leaf's path, or the records of a hierarchy. And what a leaf turns into: its condition, a leaf
    that is as good as emitted, the leaf on a parent, or leaves of a lower rank. `reduce_consults` says that there is
    nothing else, with one lemma for each function below `reduce`. -/

namespace RecordFilter

/-! ### Accepted registries -/

namespace Registry
variable {r : Registry} {m : Model} {f : Field} {name : String}

namespace Valid

/-- The lines of a one2many field have the field that points back. -/
theorem inverse_eq_ok (h : r.Valid) (hm : r.Has m) (hf : m.field? name = some f) (htype : f.type = .one2many)
    {comodel : Model} (hcomodel : r.comodel f = .ok comodel) :
    ∃ inverse, Compile.inverseName m f = .ok inverse ∧ ∃ g, Compile.inverseField m f comodel = .ok g := by
  obtain ⟨comodelName, target, hname, htarget, hcheck, -⟩ :=
    checkReference_eq_ok (h.checkReference hm hf) (by rw [htype]; rfl)
  have htarget' : comodel = target := by
    unfold Registry.comodel at hcomodel
    rw [hname] at hcomodel
    dsimp only at hcomodel
    rw [Registry.model, htarget] at hcomodel
    exact (Except.ok.inj hcomodel).symm
  subst htarget'
  unfold Registry.checkInverse at hcheck
  rw [if_pos htype] at hcheck
  split at hcheck
  · cases hcheck
  · rename_i inverse hinverse
    have hinverseName : Compile.inverseName m f = .ok inverse := by
      unfold Compile.inverseName
      rw [hinverse]
    split at hcheck
    · rename_i hsome
      obtain ⟨g, hg⟩ := Option.isSome_iff_exists.mp hsome
      refine ⟨inverse, hinverseName, { g with name := inverse }, ?_⟩
      unfold Compile.inverseField
      rw [hinverseName]
      dsimp only
      rw [hg]
    · cases hcheck

end Valid
end Registry

/-! ### Ranks -/

namespace Leaf
variable {l : Leaf}

/-- How far a leaf is from plain columns: the steps of its path, and among leaves with as many of them hierarchies
    come last. -/
def rank (l : Leaf) : Nat := 2 * l.left.toList.count '.' + if l.op.isHierarchy then 1 else 0

theorem count_splitPath {cs head rest : List Char} (h : splitPath cs = (head, some rest)) :
    cs.count '.' = rest.count '.' + 1 := by
  induction cs generalizing head with
  | nil => cases h
  | cons c cs ih =>
    unfold splitPath at h
    split at h
    · rename_i hc
      cases h
      rw [hc, List.count_cons_self]
    · rename_i hc
      rcases hsplit : splitPath cs with ⟨head', tail⟩
      rw [hsplit] at h
      cases h
      rw [List.count_cons_of_ne hc]
      exact ih hsplit

/-- Each step along the path takes two from the rank. -/
theorem rank_rest {rest : String} (h : l.path.2 = some rest) : ({ l with left := rest } : Leaf).rank + 2 = l.rank := by
  unfold path at h
  rcases hsplit : splitPath l.left.toList with ⟨head, tail⟩
  rw [hsplit] at h
  cases tail with
  | none => cases h
  | some tail =>
    cases h
    have hcount := count_splitPath hsplit
    unfold rank
    dsimp only
    rw [String.toList_ofList]
    omega

theorem rank_of_dotless {left : String} {op : Operator} {right : Operand} (hleft : '.' ∉ left.toList)
    (hop : op.isHierarchy = false) : (Leaf.mk left op right).rank = 0 := by
  unfold rank
  rw [List.count_eq_zero_of_not_mem hleft, hop]
  rfl

theorem rank_pos_of_isHierarchy (h : l.op.isHierarchy) : 0 < l.rank := by
  unfold rank
  rw [if_pos h]
  omega

end Leaf

namespace Compile
open Sql

/-- Negations do not change ranks. -/
theorem rank_of_distributeNot {d e : Domain} (h : Domain.distributeNot d = .ok e) {l : Leaf} (hl : l ∈ e.leaves) :
    ∃ l' ∈ d.leaves, l'.rank = l.rank := by
  obtain ⟨ts, hts, rfl⟩ := Domain.distributeNot_eq_ok h
  rw [Term.leaves_spell] at hl
  rw [Domain.leaves_of_terms? hts]
  rcases Domain.of_mem_leaves_inward hl with hl | ⟨l', hl', op, hop, rfl⟩
  · exact ⟨l, hl, rfl⟩
  · refine ⟨l', hl', ?_⟩
    have : l'.op.isHierarchy = op.isHierarchy := by
      cases hl'op : l'.op <;> rw [hl'op] at hop <;> cases hop <;> rfl
    simp only [Leaf.rank, this]

theorem OwnHierarchy.rank {d : Domain} (h : OwnHierarchy d) {l : Leaf} (hl : l ∈ d.leaves) : l.rank = 0 := by
  obtain ⟨path, rfl⟩ | ⟨ids, rfl⟩ := h.leaf_cases hl
  · exact Leaf.rank_of_dotless (by decide) rfl
  · exact Leaf.rank_of_dotless (by decide) rfl

/-! ### Runs that ask -/

/-- A run that is given a builder asks it only for queries in `D`; it gives only results in `P`, and apart from the
    builder it stops only for reasons in `E`. -/
inductive Consults (D : Context → String → Domain → Prop) (E : Stop → Prop) :
    {α : Type} → (α → Prop) → (QueryBuilder → Run α) → Prop
  | own {α : Type} {P : α → Prop} {x : Run α} : x.Meets P E → Consults D E P fun _ => x
  | build {ctx model d} : D ctx model d → Consults D E (fun _ => True) fun build => build ctx model d
  | bind {α β : Type} {P : α → Prop} {Q : β → Prop} {f : QueryBuilder → Run α} {g : QueryBuilder → α → Run β} :
      Consults D E P f → (∀ a, P a → Consults D E Q fun build => g build a) →
      Consults D E Q fun build => f build >>= g build

namespace Consults
variable {α β : Type} {D : Context → String → Domain → Prop} {E : Stop → Prop} {P : α → Prop} {f : QueryBuilder → Run α}

theorem pure {a : α} (h : P a) : Consults D E P fun _ => (Pure.pure a : Run α) := .own (.pure h)

theorem ite {p : Prop} [Decidable p] {g : QueryBuilder → Run α} (hf : p → Consults D E P f)
    (hg : ¬p → Consults D E P g) : Consults D E P fun build => if p then f build else g build := by
  split
  · rename_i hp
    exact hf hp
  · rename_i hp
    exact hg hp

/-- A first part that does not ask. -/
theorem before {x : Run β} {Q : β → Prop} {g : QueryBuilder → β → Run α} (hx : x.Meets Q E)
    (hg : ∀ b, Q b → Consults D E P fun build => g build b) : Consults D E P fun build => x >>= g build :=
  .bind (.own hx) hg

/-- Its results do not depend on what the builder answers. -/
theorem gives (h : Consults D E P f) {build : QueryBuilder} {t t' : Trace} {a : α} (hrun : (f build).Gives t a t') :
    P a := by
  induction h generalizing t t' with
  | own h => exact h.gives hrun
  | build _ => trivial
  | bind _ _ ihf ihg =>
    obtain ⟨a, t₁, hfirst, hsecond⟩ := Run.gives_bind.mp hrun
    exact ihg a (ihf hfirst) hsecond

theorem imp {E' : Stop → Prop} (h : Consults D E P f) (hE : ∀ stop, E stop → E' stop) : Consults D E' P f := by
  induction h with
  | own h => exact .own ⟨h.gives, fun hstop => hE _ (h.stops hstop)⟩
  | build h => exact .build h
  | bind _ _ ihf ihg => exact .bind ihf ihg

/-- Where the queries that are asked for stop only for reasons in `E`, so does the run. -/
theorem meets (h : Consults D E P f) {build : QueryBuilder}
    (hbuild : ∀ {ctx model d}, D ctx model d → (build ctx model d).Meets (fun _ => True) E) : (f build).Meets P E := by
  induction h with
  | own h => exact h
  | build h => exact hbuild h
  | bind _ _ ihf ihg => exact .bind ihf ihg

/-- Builders that agree on what is asked for cannot be told apart. -/
theorem congr (h : Consults D E P f) {build build' : QueryBuilder}
    (hbuild : ∀ {ctx model d}, D ctx model d → build ctx model d = build' ctx model d) (t : Trace) :
    (f build).run t = (f build').run t := by
  induction h generalizing t with
  | own _ => rfl
  | build h => exact congrArg (fun x : Run Query => x.run t) (hbuild h)
  | @bind _ _ _ _ f g hf _ ihf ihg =>
    rw [Run.run_bind, Run.run_bind, ← ihf]
    rcases hfirst : (f build).run t with ⟨e | a, t₁⟩
    · rfl
    · exact ihg a (hf.gives hfirst) t₁

end Consults

/-! ### What a leaf asks for, and what it turns into -/

/-- A run stops by itself with an error of the domain or its limits, or with what the database or a search hook
    answers. -/
inductive Stumbles (r : Registry) (b : Backend) : Stop → Prop
  | answer {e} : Answers r b e → Stumbles r b (.error e)
  | own {e : Error} : e.isMetadata = false → Stumbles r b (.error e)

/-- The queries that a leaf may need: for the rest of its path, or for the records of a hierarchy. -/
inductive Nests (s : Setting) (l : Leaf) : Context → String → Domain → Prop
  | path {ctx m rest} : ctx = s.context ∨ ctx = { s.context with activeTest := false } → s.registry.Has m →
      l.path.2 = some rest → Nests s l ctx m.name (.ofLeaf rest l.op l.right)
  | hierarchy {m d} : s.registry.Has m → l.op.isHierarchy → OwnHierarchy d → Nests s l s.context m.name d

/-- What a leaf at a place can turn into. -/
inductive Turns (s : Setting) (l : Leaf) (p : Place) : Step → Prop
  | emit (c) : Turns s l p (.emit c)
  | equal : l.op = .eqIfSet → Turns s l p (.leaf { l with op := .eq } p)
  | inherited {parent link} : s.registry.resolve? p.model l.path.1 = some (.inherited parent link) →
      Turns s l p (.followTo l p link parent)
  | joined {comodel rest link} : s.registry.Has comodel → l.path.2 = some rest →
      Turns s l p (.followTo { l with left := rest } p link comodel)
  | id {op} (operand) : op = .within ∨ op = .notIn → Turns s l p (.leaf ⟨"id", op, operand⟩ p)
  | named {comodel v} : classify s.registry p.model l = .ok (.many2one comodel) → l.path.2 = none →
      l.op.isHierarchy = false → names? v = none → Turns s l p (.leaf ⟨l.left, .within, .value v⟩ p)
  | widened {l'} : l.op ≠ .eqIfSet → classify s.registry p.model l = .ok .datetime → widenDate? l = some l' →
      Turns s l p (.leaf l' p)
  | lower {d e} : Domain.distributeNot d = .ok e → (∀ l' ∈ d.leaves, l'.rank < l.rank) →
      Turns s l p (.requeue (Work.ofDomain p e))

/-- What stands in the stead of a leaf. -/
def Step.works : Step → List Work
  | .emit _ => []
  | .requeue items => items
  | .follow _ item => [item]

theorem rank_of_works {d e : Domain} (he : Domain.distributeNot d = .ok e) {l : Leaf} {p' : Place}
    (h : ⟨.leaf l, p'⟩ ∈ Work.ofDomain p e) : ∃ l' ∈ d.leaves, l'.rank = l.rank ∧ p' = p := by
  obtain ⟨token, htoken, hwork⟩ := List.mem_map.mp h
  cases hwork
  obtain ⟨l', hl', hrank⟩ := rank_of_distributeNot he (List.mem_filterMap.mpr ⟨_, htoken, rfl⟩)
  exact ⟨l', hl', hrank, rfl⟩

section
variable {s : Setting} {l : Leaf} {p : Place} {f : Field}

/-- What a leaf turns into has no higher rank, and is read on a registered model. -/
theorem Turns.keeps {step : Step} (h : Turns s l p step) (hm : s.registry.Has p.model) {l' : Leaf} {p' : Place}
    (hmem : ⟨.leaf l', p'⟩ ∈ step.works) : s.registry.Has p'.model ∧ l'.rank ≤ l.rank := by
  cases h with
  | emit c => cases hmem
  | equal hop =>
    cases List.mem_singleton.mp hmem
    exact ⟨hm, by simp [Leaf.rank, hop, Operator.isHierarchy]⟩
  | inherited hresolve =>
    cases List.mem_singleton.mp hmem
    obtain ⟨parentName, -, hparent⟩ := Registry.resolve?_inherited hresolve
    exact ⟨⟨parentName, hparent⟩, Nat.le_refl _⟩
  | joined hcomodel hrest =>
    cases List.mem_singleton.mp hmem
    exact ⟨hcomodel, by rw [← Leaf.rank_rest hrest]; omega⟩
  | id operand hop =>
    cases List.mem_singleton.mp hmem
    refine ⟨hm, ?_⟩
    rw [Leaf.rank_of_dotless (by decide) (by rcases hop with rfl | rfl <;> rfl)]
    exact Nat.zero_le _
  | named _ hrest _ _ =>
    cases List.mem_singleton.mp hmem
    exact ⟨hm, by simp [Leaf.rank, Operator.isHierarchy]⟩
  | widened _ _ hl' =>
    cases List.mem_singleton.mp hmem
    obtain ⟨date, time, -, -, rfl⟩ := widenDate?_eq_some hl'
    exact ⟨hm, Nat.le_refl _⟩
  | lower he hlower =>
    obtain ⟨l₁, hl₁, hrank, rfl⟩ := rank_of_works he hmem
    have hless := hlower l₁ hl₁
    exact ⟨hm, by omega⟩

theorem stumbles_admits (l : Leaf) : Admits s l (Stumbles s.registry s.backend) where
  answer := .answer
  leaf _ := .own rfl
  paths h := .own (pathDomain_error h).isMetadata_eq_false
  badPath _ _ _ := .own rfl
  limit _ := .own rfl

/-- A computation that stops only with errors of the domain. -/
theorem ofExcept_meets {α : Type} {P : α → Prop} {x : Except Error α} (hok : ∀ a, x = .ok a → P a)
    (herr : ∀ e, x = .error e → OfDomain e) : (Run.ofExcept x).Meets P (Stumbles s.registry s.backend) :=
  .ofExcept hok fun e h => .own (herr e h).isMetadata_eq_false

/-! ### Searches and hierarchies -/

theorem findWith_consults {ctx : Context} {model : String} {d : Domain} (h : Nests s l ctx model d) :
    Consults (Nests s l) (Stumbles s.registry s.backend) (fun _ => True) fun build => findWith build ctx model d := by
  unfold findWith
  refine .before (ofExcept_meets (P := fun _ => True) (fun _ _ => trivial) fun _ he => isFalse_error he) fun b _ => ?_
  exact .ite (fun _ => .pure trivial) fun _ => .bind (.build h) fun q _ => .pure trivial

/-- The found records are expressed without a path. -/
inductive Target.Dotless : Target → Prop
  | ids : Dotless .ids
  | via {field : String} : '.' ∉ field.toList → Dotless (.via field)

/-- What the domain of a hierarchy looks like: one on the records themselves, or a leaf on the field that leads
    there. -/
inductive Expands : Target → Domain → Prop
  | own {d} : OwnHierarchy d → Expands .ids d
  | never (field) : Expands (.via field) .never
  | via (field operand) : Expands (.via field) (.ofLeaf field .within operand)

theorem hierarchyDomain_consults (hop : l.op.isHierarchy) {m : Model} (hm : s.registry.Has m) (dir : Direction)
    (ids : List Int) (parent : Option String) (target : Target) :
    Consults (Nests s l) (Stumbles s.registry s.backend) (Expands target) fun build =>
      hierarchyDomain s build dir ids m parent target := by
  unfold hierarchyDomain
  refine .ite (fun _ => .pure ?_) fun _ => ?_
  · cases target with
    | ids => exact .own .never
    | via field => exact .never field
  · refine .before ((stumbles_admits l).hierarchy dir ids m parent) fun d hd => ?_
    cases target with
    | ids => exact .pure (.own hd)
    | via field => exact .bind (findWith_consults (.hierarchy hm hop hd)) fun found _ => .pure (.via field _)

/-- A domain of lower leaves in the stead of a leaf. -/
theorem domain_consults {d : Domain} (h : ∀ l' ∈ d.leaves, l'.rank < l.rank) :
    Consults (Nests s l) (Stumbles s.registry s.backend) (Turns s l p) fun _ => Step.domain d p := by
  refine .own (.bind (P := (Domain.distributeNot d = .ok ·)) ?_ fun e he => .pure (.lower he h))
  exact ofExcept_meets (fun _ he => he) fun _ he => distributeNot_error he

theorem Expands.lower (hop : l.op.isHierarchy) {target : Target} (htarget : target.Dotless) {d : Domain}
    (h : Expands target d) : ∀ l' ∈ d.leaves, l'.rank < l.rank := by
  intro l' hl'
  have hpos := Leaf.rank_pos_of_isHierarchy hop
  have hzero : l'.rank = 0 := by
    cases h with
    | own h => exact h.rank hl'
    | never => cases hl'
    | via field operand =>
      cases List.mem_singleton.mp hl'
      cases htarget with
      | via hfield => exact Leaf.rank_of_dotless hfield rfl
  omega

theorem hierarchyStep_consults (hop : l.op.isHierarchy) {m : Model} (hm : s.registry.Has m) {target : Target}
    (htarget : target.Dotless) (dir : Direction) (ids : List Int) (parent : Option String) :
    Consults (Nests s l) (Stumbles s.registry s.backend) (Turns s l p) fun build =>
      hierarchyDomain s build dir ids m parent target >>= (Step.domain · p) :=
  .bind (hierarchyDomain_consults hop hm dir ids parent target) fun _ hd => domain_consults (hd.lower hop htarget)

theorem isHierarchy_of_direction {op : Operator} {dir : Direction} (h : Direction.ofOperator? op = some dir) :
    op.isHierarchy := by
  cases op <;> first | rfl | cases h

theorem not_isHierarchy_of_direction {op : Operator} (h : Direction.ofOperator? op = none) :
    op.isHierarchy = false := by
  cases op <;> first | rfl | cases h

/-! ### Leaves of each kind -/

theorem emitLeaf_consults :
    Consults (Nests s l) (Stumbles s.registry s.backend) (Turns s l p) fun _ => emitLeaf s l p := by
  refine .own ?_
  unfold emitLeaf
  refine .bind (P := fun _ => True) (ofExcept_meets (fun _ _ => trivial) fun _ he => plainCondition_error he)
    fun c _ => ?_
  cases leafNotice? l with
  | none => exact .pure (.emit c)
  | some notice => exact .bind (.log _ _) fun _ _ => .pure (.emit c)

/-- A path that is searched apart: the field is compared with what is found. -/
theorem reducePath_consults (hr : s.registry.Valid) (hm : s.registry.Has p.model)
    (hf : p.model.field? l.path.1 = some f) {comodel : Model} (hcomodel : s.registry.comodel f = .ok comodel)
    {rest : String} (hrest : l.path.2 = some rest) :
    Consults (Nests s l) (Stumbles s.registry s.backend) (Turns s l p) fun build =>
      reducePath s build l l.path.1 rest p f comodel := by
  have hhas : s.registry.Has comodel := Registry.has_of_comodel hcomodel
  have found : ∀ {ctx}, ctx = s.context ∨ ctx = { s.context with activeTest := false } →
      Consults (Nests s l) (Stumbles s.registry s.backend) (fun _ => True) fun build =>
        (findWith build ctx comodel.name (.ofLeaf rest l.op l.right) >>= fun x => pure x.operand : Run Operand) :=
    fun hctx => .bind (findWith_consults (.path hctx hhas hrest)) fun _ _ => .pure trivial
  unfold reducePath
  refine .bind (P := fun _ => True) ?_ fun operand _ => .pure ?_
  · unfold reducePath.target
    cases htype : f.type
    case many2one => exact found (.inr rfl)
    case one2many =>
      obtain ⟨inverse, hinverse, -⟩ := hr.inverse_eq_ok hm hf htype hcomodel
      refine .before (Q := fun _ => True) (.ofExcept (fun _ _ => trivial) fun e he => ?_) fun name _ => .ite ?_ ?_
      · rw [hinverse] at he
        cases he
      · exact fun _ => .before ((stumbles_admits l).lineIds comodel _) fun ids _ => .pure trivial
      · exact fun _ => found (.inl rfl)
    all_goals exact found (.inl rfl)
  · have hlower : ∀ l' ∈ Domain.leaves (.ofLeaf l.path.1 .within operand), l'.rank < l.rank := by
      intro l' hl'
      cases List.mem_singleton.mp hl'
      rw [Leaf.rank_of_dotless l.dotless_path rfl, ← Leaf.rank_rest hrest]
      omega
    exact .lower (d := .ofLeaf l.path.1 .within operand) rfl hlower

/-- Without search hooks a field without a column holds. -/
theorem reduceComputed_consults (hhooks : s.registry.Hookless) (f : Field) :
    Consults (Nests s l) (Stumbles s.registry s.backend) (Turns s l p) fun build => reduceComputed s build l p f := by
  unfold reduceComputed
  cases hsearch : f.search with
  | none => exact .before (.log _ _) fun _ _ => .pure (.emit _)
  | some name =>
    simp only [hhooks name]
    exact .before (.log _ _) fun _ _ => .pure (.emit _)

theorem reduceAttachment_consults (f : Field) :
    Consults (Nests s l) (Stumbles s.registry s.backend) (Turns s l p) fun _ => reduceAttachment s l p f := by
  refine .own ?_
  unfold reduceAttachment
  dsimp only
  split
  · exact .pure (.id _ (Or.inr rfl))
  · exact .pure (.id _ (Or.inl rfl))
  · exact .bind (.log _ _) fun _ _ => .pure (.emit _)

/-- The ids that stand in for names, with or without the unset field, are no names themselves. -/
theorem names?_ids (ids : List Int) (unset : Bool) :
    names? (.arr (ids.map Json.int ++ if unset then [.bool false] else [])) = none := by
  cases ids with
  | nil => cases unset <;> rfl
  | cons id ids => rfl

theorem nameLeaf_meets (comodel : Model) (names : Json) :
    (nameLeaf s l comodel names).Meets (fun leaf => ∃ v, leaf = ⟨l.left, .within, .value v⟩ ∧ names? v = none)
      (Stumbles s.registry s.backend) :=
  .bind ((stumbles_admits l).nameSearch comodel _ _ _) fun ids _ => .pure ⟨_, rfl, names?_ids ids _⟩

theorem reduceMany2one_consults (hm : s.registry.Has p.model) {comodel : Model} (hcomodel : s.registry.Has comodel)
    (hk : classify s.registry p.model l = .ok (.many2one comodel)) (hrest : l.path.2 = none) :
    Consults (Nests s l) (Stumbles s.registry s.backend) (Turns s l p) fun build =>
      reduceMany2one s build l l.path.1 p comodel := by
  unfold reduceMany2one
  cases hdir : Direction.ofOperator? l.op with
  | some dir =>
    have hop := isHierarchy_of_direction hdir
    refine .before ((stumbles_admits l).rootIds comodel) fun ids _ => .ite (fun _ => ?_) fun _ => ?_
    · exact hierarchyStep_consults hop hm .ids _ _ _
    · exact hierarchyStep_consults hop hcomodel (.via l.dotless_path) _ _ _
  | none =>
    cases hright : l.right with
    | subquery sub => exact emitLeaf_consults
    | value v =>
      refine .ite (fun _ => ?_) fun _ => emitLeaf_consults
      refine .before (nameLeaf_meets comodel v) fun leaf hleaf => ?_
      obtain ⟨v', rfl, hnames⟩ := hleaf
      exact .pure (.named hk hrest (not_isHierarchy_of_direction hdir) hnames)

theorem reduceIdHierarchy_consults (hm : s.registry.Has p.model) :
    Consults (Nests s l) (Stumbles s.registry s.backend) (Turns s l p) fun build => reduceIdHierarchy s build l p := by
  unfold reduceIdHierarchy
  cases hdir : Direction.ofOperator? l.op with
  | some dir =>
    exact .before ((stumbles_admits l).rootIds _) fun ids _ =>
      hierarchyStep_consults (isHierarchy_of_direction hdir) hm .ids _ _ _
  | none => exact .own (.fail (.own rfl))

theorem one2manyHierarchy_consults (hm : s.registry.Has p.model) {comodel : Model} (hcomodel : s.registry.Has comodel)
    (hname : '.' ∉ f.name.toList) (hop : l.op.isHierarchy) (dir : Direction) (inverse : Field) :
    Consults (Nests s l) (Stumbles s.registry s.backend) (Turns s l p) fun build =>
      one2manyHierarchy s build dir l p f inverse comodel := by
  unfold one2manyHierarchy
  refine .before ((stumbles_admits l).rootIds comodel) fun ids _ => .ite (fun _ => ?_) fun _ =>
    .ite (fun _ => ?_) fun _ => ?_
  · exact hierarchyStep_consults hop hm .ids _ _ _
  · exact hierarchyStep_consults hop hcomodel (.via hname) _ _ _
  · refine .bind (hierarchyDomain_consults hop hcomodel _ _ _ _) fun d _ =>
      .before ((stumbles_admits l).lineIds comodel d) fun lines _ => domain_consults fun l' hl' => ?_
    cases List.mem_singleton.mp hl'
    rw [Leaf.rank_of_dotless hname rfl]
    exact Leaf.rank_pos_of_isHierarchy hop

theorem allOwners_meets (inverse : Field) (comodel : Model) :
    (allOwners s inverse comodel).Meets (fun _ => True) (Stumbles s.registry s.backend) := by
  unfold allOwners
  split
  · exact .pure trivial
  · exact .bind ((stumbles_admits ⟨"", .eq, .value .null⟩).lineIds comodel _) fun lines _ =>
      .bind ((stumbles_admits ⟨"", .eq, .value .null⟩).references comodel _ _) fun ids _ => .pure trivial

theorem reduceOne2many_consults (hr : s.registry.Valid) (hm : s.registry.Has p.model)
    (hf : p.model.field? l.left = some f) (htype : f.type = .one2many) {comodel : Model}
    (hcomodel : s.registry.comodel f = .ok comodel) :
    Consults (Nests s l) (Stumbles s.registry s.backend) (Turns s l p) fun build =>
      reduceOne2many s build l p f comodel := by
  obtain ⟨-, -, inverse, hinverse⟩ := hr.inverse_eq_ok hm hf htype hcomodel
  have hname : '.' ∉ f.name.toList := by
    rw [hr.name_field hm hf]
    exact Text.not_mem_of_isIdentifier (hr.isIdentifier_field hm hf) (by decide)
  unfold reduceOne2many
  refine .before (Q := fun _ => True) (.ofExcept (fun _ _ => trivial) fun e he => ?_) fun inverse _ => ?_
  · rw [hinverse] at he
    cases he
  cases hdir : Direction.ofOperator? l.op with
  | some dir =>
    have hhas : s.registry.Has comodel := Registry.has_of_comodel hcomodel
    exact one2manyHierarchy_consults hm hhas hname (isHierarchy_of_direction hdir) dir inverse
  | none =>
    refine .ite (fun _ => ?_) fun _ => ?_
    · exact .before (allOwners_meets inverse comodel) fun owners _ => .pure (.id _ (membership _).1)
    · refine .own (.bind ((stumbles_admits l).relatedOf comodel) fun related _ => ?_)
      split
      · exact .pure (.emit _)
      · exact .pure (.id _ (membership _).2)
      · exact .pure (.id _ (membership _).2)
      · exact .bind ((stumbles_admits l).references comodel _ _) fun ids _ => .pure (.id _ (membership _).2)
      · exact .fail (.own rfl)

theorem reduceMany2many_consults (hr : s.registry.Valid) (hm : s.registry.Has p.model)
    (hf : p.model.field? l.left = some f) (htype : f.type = .many2many) (hstore : f.store) {comodel : Model}
    (hcomodel : s.registry.comodel f = .ok comodel) :
    Consults (Nests s l) (Stumbles s.registry s.backend) (Turns s l p) fun build =>
      reduceMany2many s build l p f comodel := by
  obtain ⟨relation, hrelation⟩ := hr.relation_eq_some hm hf htype hstore
  have hhas : s.registry.Has comodel := Registry.has_of_comodel hcomodel
  unfold reduceMany2many
  simp only [hrelation]
  cases hdir : Direction.ofOperator? l.op with
  | some dir =>
    have hop := isHierarchy_of_direction hdir
    unfold many2manyHierarchy
    refine .before ((stumbles_admits l).rootIds comodel) fun ids _ => .bind (hierarchyDomain_consults hop hhas _ _ _ _)
      fun d hd => ?_
    cases hd with
    | own hd =>
      refine .bind (findWith_consults (.hierarchy hhas hop hd)) fun found _ => .ite (fun _ => ?_) fun _ => ?_
      · exact .pure (.id _ (Or.inl rfl))
      · exact .pure (.emit _)
  | none =>
    refine .ite (fun _ => ?_) fun _ => ?_
    · exact .pure (.id _ (membership _).1)
    · exact .before ((stumbles_admits l).relatedOf comodel) fun related _ => .pure (.emit _)

/-- Looking up the kind of a field cannot fail, for its comodel is registered. -/
theorem classifyField_eq_ok (hr : s.registry.Valid) (hm : s.registry.Has p.model) {name : String}
    (hf : p.model.field? name = some f) : ∃ kind, classifyField s.registry f = .ok kind := by
  have relational : f.type.isRelational → ∀ g : Model → FieldKind, ∃ kind, (s.registry.comodel f).map g = .ok kind := by
    intro htype g
    obtain ⟨comodel, hcomodel⟩ := hr.comodel_eq_ok hm hf htype
    exact ⟨g comodel, by rw [hcomodel]; rfl⟩
  unfold classifyField
  split
  · exact ⟨_, rfl⟩
  · split
    · rename_i htype
      exact relational (htype ▸ rfl) _
    · rename_i htype
      exact relational (htype ▸ rfl) _
    · rename_i htype
      exact relational (htype ▸ rfl) _
    · split
      · exact ⟨_, rfl⟩
      · split <;> exact ⟨_, rfl⟩
    · exact ⟨_, rfl⟩
    · split <;> exact ⟨_, rfl⟩

/-- A leaf without a kind is one on a field that is not there, or on a path that cannot be joined. -/
theorem classify_error_own (hr : s.registry.Valid) (hm : s.registry.Has p.model) {e : Error}
    (h : classify s.registry p.model l = .error e) : e.isMetadata = false := by
  unfold classify at h
  dsimp only at h
  split at h
  · cases h
    rfl
  · cases h
  · rename_i f hresolve
    have hf := Registry.resolve?_local hresolve
    split at h
    · unfold classifyPath at h
      split at h
      · cases h
      · split at h
        · cases h
          rfl
        · rename_i htype
          obtain ⟨comodel, hcomodel⟩ := hr.comodel_eq_ok hm hf (by simpa using htype)
          rw [hcomodel] at h
          dsimp only at h
          split at h
          · split at h <;> cases h
            rfl
          · cases h
    · obtain ⟨kind, hkind⟩ := classifyField_eq_ok hr hm hf
      rw [hkind] at h
      split at h <;> cases h

theorem reduceKind_consults (hr : s.registry.Valid) (hhooks : s.registry.Hookless) (hm : s.registry.Has p.model)
    (hop : l.op ≠ .eqIfSet) {kind : FieldKind} (hk : classify s.registry p.model l = .ok kind) :
    Consults (Nests s l) (Stumbles s.registry s.backend) (Turns s l p) fun build => reduceKind s build l p kind := by
  have hfits := classify_fits hk
  cases classify_ok hk with
  | inherited hresolve => exact .pure (.inherited hresolve)
  | idHierarchy => exact reduceIdHierarchy_consults hm
  | joinedPath _ hcomodel _ _ => exact .pure (.joined (Registry.has_of_comodel hcomodel) hfits)
  | @linesPath f comodel rest hf htype hcomodel =>
    obtain ⟨inverse, hinverse, -⟩ := hr.inverse_eq_ok hm hf htype hcomodel
    unfold reduceKind
    refine .before (Q := fun _ => True) (.ofExcept (fun _ _ => trivial) fun e he => ?_) fun name _ => ?_
    · rw [hinverse] at he
      cases he
    · exact .bind (.build (.path (.inl rfl) (Registry.has_of_comodel hcomodel) hfits)) fun q _ =>
        .pure (.id _ (Or.inl rfl))
  | path hf hcomodel => exact reducePath_consults hr hm hf hcomodel hfits
  | computed _ => exact reduceComputed_consults hhooks _
  | one2many hf htype hcomodel => exact reduceOne2many_consults hr hm hf htype hcomodel
  | many2many hf htype hstore hcomodel => exact reduceMany2many_consults hr hm hf htype hstore hcomodel
  | many2one _ hcomodel => exact reduceMany2one_consults hm (Registry.has_of_comodel hcomodel) hk hfits
  | attachment _ => exact reduceAttachment_consults _
  | datetime _ =>
    unfold reduceKind
    cases hwide : widenDate? l with
    | some l' => exact .pure (.widened hop hk hwide)
    | none => exact emitLeaf_consults
  | translatable _ =>
    unfold reduceKind
    refine .ite (fun _ => .own (.bind (P := fun _ => True) ?_ fun c _ => .pure (.emit c))) fun _ => emitLeaf_consults
    exact ofExcept_meets (fun _ _ => trivial) fun _ he => translatedCondition_error he
  | plain _ _ _ => exact emitLeaf_consults

/-- A leaf asks only for the rest of its path or for the records of a hierarchy. It turns into its condition, a leaf
    that is as good as emitted, itself on a parent, or lower leaves; or it stops, with no error in the schema. -/
theorem reduce_consults (hr : s.registry.Valid) (hhooks : s.registry.Hookless) (hm : s.registry.Has p.model) :
    Consults (Nests s l) (Stumbles s.registry s.backend) (Turns s l p) fun build => reduce s build l p := by
  unfold reduce
  refine .ite (fun hop => .ite (fun _ => .pure (.emit _)) fun _ => .pure (.equal hop)) fun hop => ?_
  refine .before (Q := (classify s.registry p.model l = .ok ·)) ?_ fun kind hk =>
    reduceKind_consults hr hhooks hm hop hk
  exact .ofExcept (fun _ hk => hk) fun e he => .own (classify_error_own hr hm he)

end

end Compile
end RecordFilter
