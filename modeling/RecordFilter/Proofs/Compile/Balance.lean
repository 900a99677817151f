import RecordFilter.Proofs.Compile.Invariants
import RecordFilter.Proofs.Compile.Kinds
import RecordFilter.Proofs.Compile.LeafConditions
import RecordFilter.Proofs.Compile.Operands
import RecordFilter.Proofs.Compile.Recursion
import RecordFilter.Proofs.Domain.Leaves
import RecordFilter.Proofs.Sql.Conditions

/-! Placeholders and values stay in balance: over a registry that was accepted, every condition that comes up
    in a compilation has as many placeholders as values, and so have the operands of the leaves that are still
    to do and the queries inside the query. -/

namespace RecordFilter

theorem clean_of_isIdentifier {s : String} (h : Text.isIdentifier s) : Sql.Clean s :=
  Text.not_mem_of_isIdentifier h (by decide)

/-- A subquery has as many placeholders as values. -/
def Operand.Balanced : Operand → Prop
  | value _ => True
  | subquery s => s.fragment.Balanced

/-- All subqueries in the domain are balanced. -/
def Domain.Balanced (d : Domain) : Prop := ∀ l ∈ d.leaves, l.right.Balanced

/-- Search hooks answer a balanced operand with a balanced domain. -/
def Registry.HooksBalanced (r : Registry) : Prop :=
  ∀ name hook, r.hook? name = some hook → ∀ m op operand d, operand.Balanced → hook m op operand = .ok d → d.Balanced

theorem Domain.Balanced.distributeNot {d e : Domain} (h : d.Balanced) (he : Domain.distributeNot d = .ok e) :
    e.Balanced := operands_distributeNot h he

namespace Compile
open Sql

/-! ### Conditions of leaves -/

theorem columnConditions_balanced {column : Column} (hc : column.Clean) :
    ColumnConditions (·.fragment.Balanced) column where
  literal := literal_balanced
  isNull := isNull_balanced hc
  notNull := notNull_balanced hc
  isFalse := isFalse_balanced hc
  notFalse := notFalse_balanced hc
  compare param unaccent hleft _ _ := compare_balanced (hleft ▸ hc) _ param unaccent
  member positive params hleft := member_balanced (hleft ▸ hc) positive (params_balanced params)
  group := group_balanced
  and := and_balanced
  or := or_balanced

section
variable {l : Leaf} {c : Cond}

/-- The place is on a model of the registry, under an alias without `%`. -/
structure Place.Ready (r : Registry) (p : Place) : Prop where
  model : r.Has p.model
  tableAlias : Clean p.tableAlias

variable {r : Registry} {p : Place} {ctx : Context}

theorem Place.Ready.clean_column (hr : r.Valid) (hp : p.Ready r) {name : String} {f : Field}
    (hf : p.model.field? name = some f) : (p.column name).Clean :=
  ⟨hp.tableAlias, clean_of_isIdentifier (hr.isIdentifier_field hp.model hf)⟩

theorem plainCondition_balanced (hr : r.Valid) (hp : p.Ready r) (hl : l.right.Balanced)
    (h : plainCondition l p ctx = .ok c) : c.fragment.Balanced := by
  have hc : (p.column l.left).Clean := by
    unfold plainCondition at h
    split at h
    · cases h
    · exact hp.clean_column hr ‹_›
  refine (columnConditions_balanced hc).of_plainCondition (fun sub hsub positive => ?_) h
  rw [hsub] at hl
  have hset : (Values.select sub).fragment.Balanced := by
    rw [Values.fragment]
    exact hl
  exact member_balanced (x := .column (p.column l.left)) hc positive hset

theorem translatedCondition_balanced (hc : (p.column l.left).Clean) (h : translatedCondition l p ctx = .ok c) :
    c.fragment.Balanced := by
  have hx : (Expr.translated (p.column l.left) ctx.lang).source.Clean := hc
  exact (columnConditions_balanced hc).of_translatedCondition (fun param => compare_balanced hx _ param _) h

end

/-! ### Steps -/

/-- A token at a place that is ready, with a balanced operand. -/
structure Work.Ready (r : Registry) (w : Work) : Prop where
  place : w.place.Ready r
  operand : ∀ l, w.token = .leaf l → l.right.Balanced

theorem Work.ready_leaf {r : Registry} {p : Place} {l : Leaf} (hp : p.Ready r) (hl : l.right.Balanced) :
    Work.Ready r ⟨.leaf l, p⟩ := ⟨hp, Work.operand_leaf hl⟩

theorem Work.ready_ofDomain {r : Registry} {p : Place} {d : Domain} (hp : p.Ready r) (hd : d.Balanced) :
    ∀ w ∈ Work.ofDomain p d, w.Ready r := by
  intro w hw
  obtain ⟨hplace, hoperand⟩ := Work.operands_ofDomain hd w hw
  exact ⟨hplace ▸ hp, hoperand⟩

/-- What a leaf becomes is balanced, and leads only to places that are ready. -/
def Step.Ready (r : Registry) : Step → Prop
  | .emit c => c.fragment.Balanced
  | .requeue items => ∀ w ∈ items, w.Ready r
  | .follow join item => join.Clean ∧ item.Ready r

/-- What a compilation relies on. -/
structure Setting.Sound (s : Setting) : Prop where
  valid : s.registry.Valid
  attachmentTable : Text.isIdentifier s.context.attachmentTable
  hooks : s.registry.HooksBalanced

/-- Queries for balanced domains are ready, in contexts with an identifier as the table of attachments. -/
def ReadyBuilder (build : QueryBuilder) : Prop :=
  ∀ ctx model d q, Text.isIdentifier ctx.attachmentTable → d.Balanced → Builds build ctx model d q → q.Ready

section
variable {s : Setting} {build : QueryBuilder} {l : Leaf} {p : Place}

theorem inIdOrder_ready {q : Query} (h : q.Ready) : (inIdOrder q).Ready := by
  refine ⟨h.table, h.tableAlias, h.joins, fun order horder => ?_, h.condition⟩
  cases horder
  exact h.idColumn

theorem Finds.balanced (hbuild : ReadyBuilder build) {ctx : Context}
    (hctx : Text.isIdentifier ctx.attachmentTable) {model : String} {d : Domain} (hd : d.Balanced)
    {found : Found} (h : Finds build ctx model d found) : found.operand.Balanced := by
  cases h with
  | nothing => trivial
  | rows hq => exact (inIdOrder_ready (hbuild _ _ _ _ hctx hd hq)).ids

theorem passes_balanced (hs : s.Sound) (hbuild : ReadyBuilder build) : Passes s build Operand.Balanced where
  value _ := trivial
  found hctx hd hf := hf.balanced hbuild (by rcases hctx with rfl | rfl <;> exact hs.attachmentTable) hd

theorem Owners.balanced (hr : s.registry.Valid) (hl : l.right.Balanced) {comodel : Model}
    (hm : s.registry.Has comodel) {inverse : Field} (hinverse : Clean inverse.name) {operand : Operand}
    (h : Owners l comodel inverse operand) : operand.Balanced := by
  have htable := clean_of_isIdentifier (hr.isIdentifier_table hm)
  cases h with
  | all => exact references_balanced htable hinverse
  | ids ids => exact owners_balanced htable hinverse (params_balanced _)
  | operand hsub =>
    rw [hsub] at hl
    exact owners_balanced htable hinverse (by rw [Values.fragment]; exact hl)
  | read ids => trivial

theorem clean_inverseField (hr : s.registry.Valid) {comodel : Model} (hm : s.registry.Has comodel) {f inverse : Field}
    (h : inverseField p.model f comodel = .ok inverse) : Clean inverse.name := by
  unfold inverseField at h
  split at h
  · cases h
  · split at h <;> cases h
    rename_i hf
    exact clean_of_isIdentifier (hr.isIdentifier_field hm hf)

theorem inverseName_eq_ok {m : Model} {f : Field} {inverse : String} (h : inverseName m f = .ok inverse) :
    f.inverseName = some inverse := by
  unfold inverseName at h
  split at h <;> cases h
  assumption

theorem widenDate?_balanced {l' : Leaf} (h : widenDate? l = some l') : l'.right.Balanced := by
  unfold widenDate? at h
  split at h
  · split at h <;> cases h
    trivial
  · cases h

theorem followTo_ready (hp : p.Ready s.registry) (hl : l.right.Balanced) {link : String} (hlink : Clean link)
    (hr : s.registry.Valid) {target : Model} (hm : s.registry.Has target) :
    (Step.followTo l p link target).Ready s.registry := by
  have halias := clean_makeAlias hp.tableAlias hlink
  refine ⟨⟨halias, hp.tableAlias, hlink, clean_of_isIdentifier (hr.isIdentifier_table hm), ?_⟩,
    Work.ready_leaf ⟨hm, halias⟩ hl⟩
  show Clean "id"
  decide

theorem leaf_ready (hp : p.Ready s.registry) (hl : l.right.Balanced) : (Step.leaf l p).Ready s.registry := by
  intro w hw
  rw [List.mem_singleton.mp hw]
  exact Work.ready_leaf hp hl

theorem linkedTo_balanced (hp : p.Ready s.registry) {name : String} (hname : Clean name) {relation : Relation}
    (hrelation : Clean relation.table ∧ Clean relation.column1 ∧ Clean relation.column2) (positive : Bool)
    {related : Related} (h : ∀ sub, related = .rows sub → sub.fragment.Balanced) :
    (linkedTo p name relation positive related).fragment.Balanced := by
  have hlink : (linkedTo.link p name relation).Clean :=
    ⟨hrelation.1, clean_makeAlias hp.tableAlias hname, hrelation.2.1, hrelation.2.2, hp.tableAlias⟩
  unfold linkedTo
  split
  · exact literal_balanced _
  · exact linked_balanced hlink _ (params_balanced _)
  · rename_i sub
    exact linked_balanced hlink _ (by rw [Values.fragment]; exact h sub rfl)

/-- The relation table of a many2many field. -/
theorem clean_relation (hr : s.registry.Valid) (hp : p.Ready s.registry) {f : Field} {comodel : Model}
    (hk : classify s.registry p.model l = .ok (.many2many f comodel)) {relation : Relation}
    (hrel : f.relation = some relation) :
    Clean f.name ∧ Clean relation.table ∧ Clean relation.column1 ∧ Clean relation.column2 := by
  cases classify_ok hk with
  | many2many hf htype hstore _ =>
    obtain ⟨htable, hcolumn1, hcolumn2⟩ := hr.isIdentifier_relation hp.model hf htype hstore hrel
    refine ⟨?_, clean_of_isIdentifier htable, clean_of_isIdentifier hcolumn1, clean_of_isIdentifier hcolumn2⟩
    rw [hr.name_field hp.model hf]
    exact clean_of_isIdentifier (hr.isIdentifier_field hp.model hf)

/-- A leaf that is ready becomes something that is ready. -/
theorem Reduces.ready (hs : s.Sound) (hbuild : ReadyBuilder build) (hp : p.Ready s.registry) (hl : l.right.Balanced)
    {step : Step} (h : Reduces s build l p step) : step.Ready s.registry := by
  have hr := hs.valid
  have domain : ∀ {d e : Domain}, d.Balanced → Domain.distributeNot d = .ok e →
      (Step.requeue (Work.ofDomain p e)).Ready s.registry := fun hd he =>
    Work.ready_ofDomain hp (hd.distributeNot he)
  have hpasses : Passes s build Operand.Balanced := passes_balanced hs hbuild
  cases h with
  | holds => exact literal_balanced true
  | noLines negative => exact literal_balanced negative
  | equal _ => exact leaf_ready hp hl
  | inherited hk =>
    cases classify_ok hk with
    | inherited hresolve =>
      obtain ⟨parentName, hlink, hparent⟩ := Registry.resolve?_inherited hresolve
      exact followTo_ready hp hl (clean_of_isIdentifier (hr.isIdentifier_link hp.model hlink)) hr ⟨parentName, hparent⟩
  | @joined comodel rest hk =>
    cases classify_ok hk with
    | joinedPath hf hcomodel =>
      have hrest : ({ l with left := rest } : Leaf).right.Balanced := hl
      exact followTo_ready hp hrest (clean_of_isIdentifier (hr.isIdentifier_field hp.model hf)) hr
        (Registry.has_of_comodel hcomodel)
  | lines hk hinverse hq =>
    cases classify_ok hk with
    | linesPath hf htype _ =>
      have hq := hbuild _ _ _ _ hs.attachmentTable (Domain.operands_ofLeaf hl) hq
      have hclean := clean_of_isIdentifier (hr.isIdentifier_inverse hp.model hf htype (inverseName_eq_ok hinverse))
      exact leaf_ready hp (hq.subselect (clean_qualified hq.tableAlias hclean))
  | path _ ho => exact leaf_ready hp (ho.passes hpasses (Domain.operands_ofLeaf hl))
  | hook _ hhook ho hd he => exact domain (hs.hooks _ _ hhook _ _ _ _ (ho.passes hpasses hl) hd) he
  | hierarchy _ hd he => exact domain (hd.operands hpasses) he
  | @heldLines f _ ids _ _ he =>
    have hd : (Domain.ofLeaf f.name .within (.value (.ofIds ids))).Balanced := Domain.operands_ofLeaf trivial
    exact domain hd he
  | owners hk hinverse _ ho =>
    cases classify_ok hk with
    | one2many _ _ hcomodel =>
      have hm := Registry.has_of_comodel hcomodel
      exact leaf_ready hp (ho.balanced hr hl hm (clean_inverseField hr hm hinverse))
  | relatives _ hd hf => exact leaf_ready hp (hf.balanced hbuild hs.attachmentTable (hd.operands hpasses.value))
  | linkedFound hk hrel hd hf =>
    obtain ⟨hname, hrelation⟩ := clean_relation hr hp hk hrel
    refine linkedTo_balanced hp hname hrelation true fun sub hsub => ?_
    have hfound := hf.balanced hbuild hs.attachmentTable (hd.operands hpasses.value)
    cases hf with
    | nothing _ => cases hsub
    | rows _ =>
      cases hsub
      exact hfound
  | linked positive hk hrel hn =>
    obtain ⟨hname, hrelation⟩ := clean_relation hr hp hk hrel
    exact linkedTo_balanced hp hname hrelation positive fun sub hsub => hn.passes (P := Operand.Balanced) hl hsub
  | anyLink hk hrel _ =>
    obtain ⟨-, htable, hcolumn1, -⟩ := clean_relation hr hp hk hrel
    exact leaf_ready hp (references_balanced htable hcolumn1)
  | named _ _ => exact leaf_ready hp trivial
  | attached _ _ => exact leaf_ready hp (attached_balanced (clean_of_isIdentifier hs.attachmentTable) _ _)
  | widened _ hw => exact leaf_ready hp (widenDate?_balanced hw)
  | plain hc => exact plainCondition_balanced hr hp hl hc
  | translated hk hc =>
    cases classify_ok hk with
    | translatable hf => exact translatedCondition_balanced (hp.clean_column hr hf) hc

/-! ### The machine -/

theorem Step.Ready.keeps {r : Registry} {step : Step} (h : step.Ready r) :
    step.Keeps (Work.Ready r) (·.fragment.Balanced) Query.Ready := by
  cases step with
  | emit c => exact h
  | requeue items => exact h
  | follow join item => exact ⟨fun q hq => hq.addJoin h.1, h.2⟩

/-- Every reduction leaves what waits ready. -/
theorem inductive_ready (hs : s.Sound) (hbuild : ReadyBuilder build) :
    Inductive s build (Work.Ready s.registry) (·.fragment.Balanced) Query.Ready where
  literal := literal_balanced
  and := and_balanced
  or := or_balanced
  not := not_balanced
  reduce hw h := ((reduce_meets.gives h).ready hs hbuild hw.place (hw.operand _ rfl)).keeps

namespace Machine

/-- Everything that waits is ready, done or not. -/
structure Ready (r : Registry) (m : Machine) : Prop where
  work : ∀ w ∈ m.work, w.Ready r
  results : ∀ c ∈ m.results, c.fragment.Balanced
  query : m.query.Ready

/-- The machines that come up one token after the other. -/
inductive Reaches (s : Setting) (build : QueryBuilder) : Machine → Machine → Prop
  | refl (m) : Reaches s build m m
  | step {m item rest results q t next t'} : (Machine.step s build item rest results q).Gives t next t' →
      Reaches s build next m → Reaches s build ⟨item :: rest, results, q⟩ m

/-- What every reduction keeps holds of every machine that comes up. -/
theorem Reaches.keeps {W : Work → Prop} {C : Cond → Prop} {Q : Query → Prop} (h : Inductive s build W C Q)
    {m m' : Machine} (hreach : Reaches s build m m') (hm : m.Keeps W C Q) : m'.Keeps W C Q := by
  induction hreach with
  | refl m => exact hm
  | step hstep _ ih => exact ih (step_keeps h hm hstep)

/-- Every machine that comes up is ready. -/
theorem Reaches.ready (hs : s.Sound) (hbuild : ReadyBuilder build) {m m' : Machine} (hreach : Reaches s build m m')
    (h : m.Ready s.registry) : m'.Ready s.registry := by
  obtain ⟨hwork, hresults, hquery⟩ := hreach.keeps (inductive_ready hs hbuild) ⟨h.work, h.results, h.query⟩
  exact ⟨hwork, hresults, hquery⟩

/-- A condition is the only one that waits in a machine with nothing left to do. -/
theorem reaches_of_run {fuel : Nat} {m : Machine} {t t' : Trace} {c : Cond} {q : Query}
    (h : outcome s build fuel m t = ((.ok c, q), t')) : Reaches s build m ⟨[], [c], q⟩ := by
  -- With nothing left to do the run is over, whatever the fuel.
  have done : ∀ {fuel results q' t}, outcome s build fuel ⟨[], results, q'⟩ t = ((.ok c, q), t') →
      Reaches s build ⟨[], results, q'⟩ ⟨[], [c], q⟩ := by
    intro fuel results q' t h
    rw [outcome_nil] at h
    obtain ⟨⟨hresult, rfl⟩, -⟩ : (result results = .ok c ∧ q' = q) ∧ t = t' := by simpa using h
    unfold result at hresult
    split at hresult <;> cases hresult
    exact .refl _
  induction fuel generalizing m t with
  | zero =>
    obtain ⟨_ | ⟨item, rest⟩, results, q'⟩ := m
    · exact done h
    · cases h
  | succ fuel ih =>
    obtain ⟨_ | ⟨item, rest⟩, results, q'⟩ := m
    · exact done h
    · rw [outcome_succ] at h
      rcases hstep : (step s build item rest results q').run t with ⟨e | next, t₁⟩ <;> rw [hstep] at h
      · cases h
      · exact .step hstep (ih h)

theorem start_ready {r : Registry} {q : Query} {d : Domain} (hp : p.Ready r) (hd : d.Balanced) (hq : q.Ready) :
    (start p d q).Ready r :=
  ⟨fun w hw => Work.ready_ofDomain hp hd w (List.mem_reverse.mp hw), nofun, hq⟩

end Machine

/-- What every reduction keeps holds of the condition of a domain and of the query, if it holds of the domain's tokens and
    of the query before. -/
theorem compileOn_keeps {W : Work → Prop} {C : Cond → Prop} {Q : Query → Prop} (hkeeps : Inductive s build W C Q)
    {d : Domain} (hd : ∀ e, Domain.distributeNot d = .ok e → ∀ w ∈ Work.ofDomain p e, W w) {q q' : Query} (hq : Q q)
    {fuel : Nat} {t t' : Trace} {c : Cond}
    (h : (Compiler.compileOn s build fuel p d q).run t = ((.ok c, q'), t')) : C c ∧ Q q' := by
  unfold Compiler.compileOn at h
  split at h
  · cases h
  · rename_i e he
    have hstart : (Machine.start p e q).Keeps W C Q := ⟨fun w hw => hd e he w (List.mem_reverse.mp hw), nofun, hq⟩
    have hend := (Machine.reaches_of_run h).keeps hkeeps hstart
    exact ⟨hend.results c List.mem_cons_self, hend.query⟩

theorem compileOn_ready (hs : s.Sound) (hbuild : ReadyBuilder build) (hp : p.Ready s.registry) {d : Domain}
    (hd : d.Balanced) {q q' : Query} (hq : q.Ready) {fuel : Nat} {t t' : Trace} {c : Cond}
    (h : (Compiler.compileOn s build fuel p d q).run t = ((.ok c, q'), t')) : c.fragment.Balanced ∧ q'.Ready :=
  compileOn_keeps (inductive_ready hs hbuild) (fun _ he => Work.ready_ofDomain hp (hd.distributeNot he)) hq h

end

/-! ### Compilations -/

theorem queryIn_ready (c : Compiler) (hr : c.registry.Valid) (hhooks : c.registry.HooksBalanced) (fuel : Nat) :
    ReadyBuilder (c.queryIn fuel) := by
  induction fuel with
  | zero =>
    rintro ctx model d q - - ⟨t, t', h⟩
    cases h
  | succ fuel ih =>
    rintro ctx model d q hctx hd ⟨t, t', h⟩
    have ofTable : ∀ m, c.registry.model model = .ok m → (Query.ofTable m.table).Ready := fun m hm =>
      .ofTable (clean_of_isIdentifier (hr.isIdentifier_table (Registry.has_of_model hm)))
    refine (queryIn_meets (P := Query.Ready) (E := fun _ => True) (fun _ _ => trivial) (fun _ _ _ => trivial) ofTable
      ?_ fun _ _ _ _ _ _ _ _ _ => trivial).gives h
    rintro m d' q q' cond tr tr' hm hd' rfl hon
    have hq := ofTable m hm
    have hsound : (c.setting ctx).Sound := ⟨hr, hctx, hhooks⟩
    have hp : Place.Ready c.registry ⟨m, (Query.ofTable m.table).tableAlias⟩ := ⟨Registry.has_of_model hm, hq.tableAlias⟩
    obtain ⟨hcond, hq'⟩ := compileOn_ready hsound ih hp (operands_withActive (fun _ => trivial) hd hd') hq hon
    exact hq'.addCondition hcond

/-- The condition, the query of the ids and the subquery of the ids have as many placeholders as values. -/
structure QueryBalanced (q : Query) : Prop where
  condition : q.condition.fragment.Balanced
  select : (q.select []).fragment.Balanced
  ids : q.ids.fragment.Balanced

theorem queryBalanced_of_ready {q : Query} (h : q.Ready) : QueryBalanced q := ⟨h.condition, h.select, h.ids⟩

/-- Over a registry that was accepted, with hooks that answer balanced operands with balanced domains: where a
    balanced domain is compiled into a query that is ready, the query is balanced afterwards; every condition that
    waits on the way is, emitted or combined, and so is every operand still to do; and so is every query that is
    built inside. -/
theorem compile_balanced (c : Compiler) (hr : c.registry.Valid) (hhooks : c.registry.HooksBalanced)
    (hattachments : Text.isIdentifier c.context.attachmentTable) (fuel : Nat) {model : String} {m : Model}
    (hm : c.registry.model model = .ok m) {d : Domain} (hd : d.Balanced) {q : Query} (hq : q.Ready) :
    (∀ q' tr tr', (c.compile fuel model d q).run tr = ((.ok (), q'), tr') → QueryBalanced q') ∧
    (∀ e machine, Domain.distributeNot d = .ok e →
      Machine.Reaches (c.setting c.context) (c.queryIn fuel) (Machine.start ⟨m, q.tableAlias⟩ e q) machine →
        (∀ cond ∈ machine.results, cond.fragment.Balanced) ∧
        ∀ w ∈ machine.work, ∀ l, w.token = .leaf l → l.right.Balanced) ∧
    ∀ ctx model' d' q', Text.isIdentifier ctx.attachmentTable → d'.Balanced →
      Builds (c.queryIn fuel) ctx model' d' q' → QueryBalanced q' := by
  have hbuild := queryIn_ready c hr hhooks fuel
  have hsound : (c.setting c.context).Sound := ⟨hr, hattachments, hhooks⟩
  have hp : Place.Ready c.registry ⟨m, q.tableAlias⟩ := ⟨Registry.has_of_model hm, hq.tableAlias⟩
  refine ⟨fun q' tr tr' h => ?_, fun e machine he hreach => ?_, fun ctx model' d' q' hctx hd' hq' => ?_⟩
  · have hwith := compileWith_run (c.setting c.context) (c.queryIn fuel) hm fuel d q tr
    unfold Compiler.compile at h
    rw [h] at hwith
    rcases hon : (Compiler.compileOn (c.setting c.context) (c.queryIn fuel) fuel ⟨m, q.tableAlias⟩ d q).run tr with
      ⟨⟨stop | cond, q₁⟩, tr₁⟩ <;> rw [hon] at hwith <;> cases hwith
    obtain ⟨hcond, hq₁⟩ := compileOn_ready hsound hbuild hp hd hq hon
    exact queryBalanced_of_ready (hq₁.addCondition hcond)
  · have hready := hreach.ready hsound hbuild (Machine.start_ready hp (hd.distributeNot he) hq)
    exact ⟨hready.results, fun w hw => (hready.work w hw).operand⟩
  · exact queryBalanced_of_ready (hbuild _ _ _ _ hctx hd' hq')

theorem valid_tasks : taskCompiler.registry.Valid := ⟨.register (m := taskModel) .empty rfl, rfl⟩

/-- Tasks with a note by someone: a subquery with a value of its own. -/
theorem compile_balanced_tasks :
    let notes : Select := .text ⟨"SELECT task FROM note WHERE author = %s", [.int 7]⟩
    let d : Domain := [.or, .leaf ⟨"done", .eq, .value (.bool true)⟩, .leaf ⟨"id", .within, .subquery notes⟩]
    let o := (taskCompiler.compile 9 "task" d (.ofTable "task")).run {}
    taskCompiler.registry.Valid ∧ taskCompiler.registry.HooksBalanced ∧
      Text.isIdentifier taskCompiler.context.attachmentTable ∧ taskCompiler.registry.model "task" = .ok taskModel ∧
      d.Balanced ∧ (Query.ofTable "task").Ready ∧ ∃ q tr, o = ((.ok (), q), tr) ∧ QueryBalanced q := by
  intro notes d o
  have hhooks : taskCompiler.registry.HooksBalanced := by
    intro name hook h
    cases h
  have hnotes : notes.fragment.Balanced := by
    show Fragment.countMarks _ = 1
    decide
  have hd : d.Balanced := by
    intro l hl
    rcases List.mem_cons.mp hl with rfl | hl
    · trivial
    · rw [List.mem_singleton.mp hl]
      exact hnotes
  have hq : (Query.ofTable "task").Ready := .ofTable (by decide)
  refine ⟨valid_tasks, hhooks, by decide, rfl, hd, hq, ?_⟩
  have hok : o.1.1.isOk := by decide +kernel
  rcases ho : o with ⟨⟨e | ⟨⟩, q⟩, tr⟩ <;> rw [ho] at hok
  · cases hok
  · exact ⟨q, tr, rfl, (compile_balanced taskCompiler valid_tasks hhooks (by decide) 9 rfl hd hq).1 q {} tr ho⟩

end Compile
end RecordFilter
