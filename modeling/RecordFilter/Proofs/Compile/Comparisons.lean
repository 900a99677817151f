import RecordFilter.Proofs.Compile.Additions
import RecordFilter.Proofs.Compile.HierarchyLeaves
import RecordFilter.Proofs.Compile.LeafConditions
import RecordFilter.Proofs.Compile.Operands
import RecordFilter.Proofs.Compile.Settling
import RecordFilter.Proofs.Sql.Vocabulary

/-! The comparisons in a compiled text. Every reduction of a leaf keeps operands and conditions to the comparisons of SQL,
    so the text of a domain without subqueries holds no other one; a leaf that asks for descendants or ancestors is
    rewritten or rejected before it gets there. -/

namespace RecordFilter
open Sql

/-- The comparisons in a subquery are those of SQL. -/
def Operand.Standard : Operand → Prop
  | value _ => True
  | subquery s => s.Standard

/-- No subquery in the domain compares otherwise. -/
def Domain.Standard (d : Domain) : Prop := ∀ l ∈ d.leaves, l.right.Standard

/-- Search hooks bring in no comparison of their own: where they are asked with standard operands, so are their
    answers. -/
def Registry.HooksStandard (r : Registry) : Prop :=
  ∀ name hook, r.hook? name = some hook → ∀ m op operand d, operand.Standard → hook m op operand = .ok d → d.Standard

namespace Sql.Query

/-- The conditions of the query are standard, and it gives all its rows in no order. -/
structure Standard (q : Query) : Prop where
  conditions : ∀ c ∈ q.conditions, c.Standard
  window : q.window = {}

namespace Standard
variable {q : Query}

theorem condition (h : q.Standard) : q.condition.Standard :=
  Query.condition_of trivial (fun ha hb => ⟨ha, hb⟩) h.conditions

theorem subselect (h : q.Standard) (c : Column) : (q.subselect (.column c)).Standard := by
  refine ⟨⟨c, rfl⟩, h.condition, ?_⟩
  rw [h.window]
  rfl

theorem select (h : q.Standard) : (q.select []).Standard := ⟨⟨_, rfl⟩, h.condition, h.window⟩

theorem addCondition (h : q.Standard) {c : Cond} (hc : c.Standard) : (q.addCondition c).Standard := by
  refine ⟨fun c' hc' => ?_, h.window⟩
  rcases List.mem_append.mp hc' with hc' | hc'
  · exact h.conditions c' hc'
  · rw [List.mem_singleton.mp hc']
    exact hc

theorem ofExtends {q' : Query} (h : q.Standard) (hq : q.Extends q') : q'.Standard :=
  ⟨hq.conditions ▸ h.conditions, hq.window.trans h.window⟩

end Standard
end Sql.Query

namespace Compile

variable {s : Setting} {build : QueryBuilder} {l : Leaf} {p : Place}

/-! ### Conditions of leaves -/

/-- Every other operator is a comparison of SQL. -/
theorem keyword_mem {op : Operator} (hset : op ≠ .eqIfSet) (hhierarchy : op.isHierarchy = false) :
    op.keyword ∈ comparisons := by
  cases op <;> first | decide | contradiction

theorem columnConditions_standard (column : Column) : ColumnConditions Cond.Standard column where
  literal _ := trivial
  isNull := trivial
  notNull := trivial
  isFalse := trivial
  notFalse := trivial
  compare _ _ _ hset hhierarchy := .inl (keyword_mem hset hhierarchy)
  member _ _ _ := trivial
  group h := h
  and ha hb := ⟨ha, hb⟩
  or ha hb := ⟨ha, hb⟩

section
variable {c : Cond} {ctx : Context}

theorem plainCondition_standard (hl : l.right.Standard) (h : plainCondition l p ctx = .ok c) : c.Standard := by
  refine (columnConditions_standard _).of_plainCondition (fun sub hsub _ => ?_) h
  rw [hsub] at hl
  exact hl

/-- With a hierarchy operator the condition is one of those that nothing is said of. -/
theorem translatedCondition_standard (hset : l.op ≠ .eqIfSet) (h : translatedCondition l p ctx = .ok c) : c.Standard := by
  have base : l.op.keyword ∈ comparisons ∨
      ((Expr.translated (p.column l.left) ctx.lang).isTranslated ∧ l.op.isHierarchy ∧
        (l.op.isPattern && ctx.unaccent) = false) := by
    cases hhierarchy : l.op.isHierarchy with
    | false => exact .inl (keyword_mem hset hhierarchy)
    | true =>
      have hpattern : l.op.isPattern = false := by
        cases hop : l.op <;> rw [hop] at hhierarchy <;> cases hhierarchy <;> rfl
      exact .inr ⟨rfl, rfl, by rw [hpattern]; rfl⟩
  exact (columnConditions_standard _).of_translatedCondition (fun _ => base) h

end

/-! ### Steps -/

/-- Queries for standard domains are standard. -/
def StandardBuilder (build : QueryBuilder) : Prop :=
  ∀ ctx model d q, d.Standard → Builds build ctx model d q → q.Standard

/-- A token whose operand, if it has one, is standard. -/
def Work.Standard (w : Work) : Prop := ∀ l, w.token = .leaf l → l.right.Standard

/-- Conditions and operands are standard; nothing is asked of the query. -/
abbrev Step.Standard : Step → Prop := Step.Keeps Work.Standard Cond.Standard fun _ => True

theorem Work.standard_ofDomain {d : Domain} (h : d.Standard) : ∀ w ∈ Work.ofDomain p d, w.Standard := fun w hw =>
  (Work.operands_ofDomain h w hw).2

theorem leaf_standard (h : l.right.Standard) : (Step.leaf l p).Standard := by
  intro w hw
  rw [List.mem_singleton.mp hw]
  exact Work.operand_leaf h

theorem Finds.standard (hbuild : StandardBuilder build) {ctx : Context} {model : String} {d : Domain} (hd : d.Standard)
    {found : Found} (h : Finds build ctx model d found) : found.operand.Standard := by
  cases h with
  | nothing => trivial
  | rows hq =>
    have hquery := hbuild _ _ _ _ hd hq
    show Select.Standard (inIdOrder _).ids
    rw [ids_inIdOrder hquery.window]
    exact hquery.subselect _

theorem passes_standard (hbuild : StandardBuilder build) : Passes s build Operand.Standard where
  value _ := trivial
  found _ hd hf := hf.standard hbuild hd

theorem Owners.standard (hl : l.right.Standard) {comodel : Model} {inverse : Field} {operand : Operand}
    (h : Owners l comodel inverse operand) : operand.Standard := by
  cases h with
  | all => trivial
  | ids ids => trivial
  | operand hsub =>
    rw [hsub] at hl
    exact hl
  | read ids => trivial

theorem linkedTo_standard {name : String} {relation : Relation} {positive : Bool} {related : Related}
    (h : ∀ sub, related = .rows sub → sub.Standard) : (linkedTo p name relation positive related).Standard := by
  unfold linkedTo
  split
  · trivial
  · trivial
  · rename_i sub
    exact h sub rfl

/-- A leaf with a standard operand becomes leaves with standard operands, or a standard condition. -/
theorem Reduces.standard (hhooks : s.registry.HooksStandard) (hbuild : StandardBuilder build) (hl : l.right.Standard)
    (hset : l.op ≠ .eqIfSet) {step : Step} (h : Reduces s build l p step) : step.Standard := by
  have domain : ∀ {d e : Domain}, d.Standard → Domain.distributeNot d = .ok e →
      (Step.requeue (Work.ofDomain p e)).Standard := fun hd he => Work.standard_ofDomain (Domain.operands_distributeNot hd he)
  have hpasses : Passes s build Operand.Standard := passes_standard hbuild
  cases h with
  | holds => trivial
  | noLines negative => trivial
  | equal _ => exact leaf_standard hl
  | inherited _ => exact ⟨fun _ _ => trivial, Work.operand_leaf hl⟩
  | joined _ => exact ⟨fun _ _ => trivial, Work.operand_leaf hl⟩
  | lines _ _ hq => exact leaf_standard ((hbuild _ _ _ _ (Domain.operands_ofLeaf hl) hq).subselect _)
  | path _ ho => exact leaf_standard (ho.passes hpasses (Domain.operands_ofLeaf hl))
  | hook _ hhook ho hd he => exact domain (hhooks _ _ hhook _ _ _ _ (ho.passes hpasses hl) hd) he
  | hierarchy _ hd he => exact domain (hd.operands hpasses) he
  | @heldLines _ _ ids _ _ he =>
    have hids : (Operand.value (.ofIds ids)).Standard := trivial
    exact domain (Domain.operands_ofLeaf hids) he
  | owners _ _ _ ho => exact leaf_standard (ho.standard hl)
  | relatives _ hd hf => exact leaf_standard (hf.standard hbuild (hd.operands hpasses.value))
  | linkedFound _ _ hd hf =>
    refine linkedTo_standard fun sub hsub => ?_
    have hfound := hf.standard hbuild (hd.operands hpasses.value)
    cases hf with
    | nothing _ => cases hsub
    | rows _ =>
      cases hsub
      exact hfound
  | linked _ _ _ hn => exact linkedTo_standard fun sub hsub => hn.passes (P := Operand.Standard) hl hsub
  | anyLink _ _ _ => exact leaf_standard trivial
  | named _ _ => exact leaf_standard trivial
  | attached _ _ => exact leaf_standard trivial
  | widened _ hw =>
    obtain ⟨date, time, -, -, rfl⟩ := widenDate?_eq_some hw
    exact leaf_standard trivial
  | plain hc => exact plainCondition_standard hl hc
  | translated _ hc => exact translatedCondition_standard hset hc

theorem inductive_standard (hhooks : s.registry.HooksStandard) (hbuild : StandardBuilder build) :
    Inductive s build Work.Standard Cond.Standard fun _ => True where
  literal _ := trivial
  and ha hb := ⟨ha, hb⟩
  or ha hb := ⟨ha, hb⟩
  not hc := hc
  reduce {l p t t' step} hw h := by
    have hl : l.right.Standard := hw l rfl
    by_cases hop : l.op = .eqIfSet
    · unfold Compile.reduce at h
      rw [if_pos hop] at h
      split at h <;> cases h
      · trivial
      · exact leaf_standard hl
    · exact (reduce_meets.gives h).standard hhooks hbuild hl hop

theorem compileOn_standard (hhooks : s.registry.HooksStandard) (hbuild : StandardBuilder build) {d : Domain}
    (hd : d.Standard) {fuel : Nat} {q q' : Query} {t t' : Trace} {c : Cond}
    (h : (Compiler.compileOn s build fuel p d q).run t = ((.ok c, q'), t')) : c.Standard :=
  (compileOn_keeps (inductive_standard hhooks hbuild) (fun _ he => Work.standard_ofDomain (Domain.operands_distributeNot hd he)) trivial
    h).1

/-! ### Queries -/

theorem queryIn_standard (c : Compiler) (hhooks : c.registry.HooksStandard) (fuel : Nat) :
    StandardBuilder (c.queryIn fuel) := by
  have ofTable : ∀ table, (Query.ofTable table).Standard := fun table => ⟨nofun, rfl⟩
  induction fuel with
  | zero =>
    rintro ctx model d q - ⟨t, t', h⟩
    cases h
  | succ fuel ih =>
    rintro ctx model d q hd ⟨t, t', h⟩
    obtain ⟨m, e, -, he, ⟨-, rfl⟩ | ⟨-, cond, q', tr', hon, rfl⟩⟩ := queryIn_gives h
    · exact ofTable m.table
    · have hcond := compileOn_standard (s := c.setting ctx) hhooks ih (operands_withActive (fun _ => trivial) hd he) hon
      exact ((ofTable m.table).ofExtends (compileOn_extends hon)).addCondition hcond

/-! ### Requests -/

/-- Over an accepted registry whose hooks bring in no comparison of their own, a domain without subqueries is compiled to a
    text with no other comparison than those of SQL: that of its condition and those of its joins, and that of its whole
    query. Whatever the hooks do, a leaf that asks for descendants or ancestors is rejected on a column of its own;
    anywhere else but on a translated column with a value, it becomes what `HierarchyStep` lists, unless the compilation
    stops there. -/
theorem compile_comparisons (c : Compiler) (hr : c.registry.Valid) :
    (c.registry.HooksStandard → ∀ fuel model d, (∀ l ∈ d.leaves, ∃ v, l.right = .value v) →
      (∀ q t q' t', (c.compile fuel model d q).run t = ((.ok (), q'), t') →
        ∃ joins cond, q.Appended q' joins cond ∧ Written cond.fragment.sql ∧ ∀ j ∈ joins, Written j.text) ∧
      ∀ t q t', (c.query fuel model d).Gives t q t' → Written (q.select []).fragment.sql) ∧
    ∀ ctx fuel l p, c.registry.Has p.model → l.op.isHierarchy →
      (OnColumn (c.setting ctx) l p → ∀ t, ∃ fault,
        (reduce (c.setting ctx) (c.queryIn fuel) l p).run t = (.error (.error (.invalidLeaf l.text fault)), t)) ∧
      ((classify c.registry p.model l = .ok .translatable → l.right.isTruthy = false) →
        ∀ t step t', (reduce (c.setting ctx) (c.queryIn fuel) l p).Gives t step t' →
          HierarchyStep (c.setting ctx) (c.queryIn fuel) l p step) := by
  refine ⟨fun hhooks fuel model d hd => ?_,
    fun ctx fuel l p hp hop => ⟨reduce_rejects hop, fun htranslated t step t' h => ?_⟩⟩
  · have hstandard : d.Standard := fun l hl => by
      obtain ⟨v, hv⟩ := hd l hl
      rw [hv]
      trivial
    have hbuild := queryIn_standard c hhooks fuel
    refine ⟨fun q t q' t' h => ?_, fun t q t' h => ?_⟩
    · obtain ⟨m, cond, q₁, t₁, hm, hon, rfl, -⟩ := compile_gives h
      obtain ⟨r, joins, t₂, hadds, -, -⟩ :=
        compileOn_adds (c.setting c.context) (c.queryIn fuel) fuel ⟨m, q.tableAlias⟩ d t
      cases (hadds q).symm.trans hon
      have hcond := compileOn_standard (s := c.setting c.context) hhooks hbuild hstandard hon
      exact ⟨joins, cond, q.appended joins cond, cond.written hcond, fun j _ => j.written⟩
    · exact (q.select []).written (hbuild c.context model d q hstandard ⟨t, t', h⟩).select
  · exact (reduce_expands hr hp hop htranslated).gives h

/-- A letter has a subject and a scan, and answers another. -/
def letterModel : Model :=
  (((Model.ofTable "letter" "letter").withField { name := "subject", type := .char }).withField
    { name := "scan", type := .binary, attachment := true }).withField (Field.many2one "parent_id" "letter")

/-- A compiler for letters, which nobody has answered. -/
def letterCompiler : Compiler where
  registry := { models := Keyed.empty.insert "letter" letterModel }
  backend := { search := fun _ _ _ _ => .ok [], references := fun _ _ _ _ => .ok [], parentPaths := fun _ _ _ => .ok [] }
  context := taskCompiler.context

theorem valid_letters : letterCompiler.registry.Valid := ⟨.register (m := letterModel) .empty rfl, rfl⟩

/-- The letters that answer the seventh one and are not about taxes; and a subject that has no descendants. -/
theorem compile_comparisons_letters :
    let d : Domain := [.leaf ⟨"id", .childOf, .value (.int 7)⟩, .leaf ⟨"subject", .notIlike, .value (.str "tax")⟩]
    let l : Leaf := ⟨"subject", .childOf, .value (.int 7)⟩
    letterCompiler.registry.Valid ∧ letterCompiler.registry.HooksStandard ∧
      (∃ q' t', (letterCompiler.compile 9 "letter" d (.ofTable "letter")).run {} = ((.ok (), q'), t') ∧
        ∃ joins cond, (Query.ofTable "letter").Appended q' joins cond ∧ Written cond.fragment.sql ∧
          ∀ j ∈ joins, Written j.text) ∧
      ∀ t, ∃ fault, (reduce (letterCompiler.setting letterCompiler.context) (letterCompiler.queryIn 9) l
        ⟨letterModel, "letter"⟩).run t = (.error (.error (.invalidLeaf l.text fault)), t) := by
  intro d l
  have hhooks : letterCompiler.registry.HooksStandard := by
    intro name hook h
    cases h
  have hvalues : ∀ l ∈ d.leaves, ∃ v, l.right = .value v := by
    intro l hl
    rcases List.mem_cons.mp hl with rfl | hl
    · exact ⟨_, rfl⟩
    · rw [List.mem_singleton.mp hl]
      exact ⟨_, rfl⟩
  have hplain : classify letterCompiler.registry letterModel l = .ok .plain := by
    show classify letterCompiler.registry letterModel ⟨"subject", .childOf, .value (.int 7)⟩ = .ok .plain
    rfl
  obtain ⟨hcompile, hleaf⟩ := compile_comparisons letterCompiler valid_letters
  have hok : ∃ q' t', (letterCompiler.compile 9 "letter" d (.ofTable "letter")).run {} = ((.ok (), q'), t') :=
    ⟨_, _, rfl⟩
  obtain ⟨q', t', h⟩ := hok
  exact ⟨valid_letters, hhooks, ⟨q', t', h, (hcompile hhooks 9 "letter" d hvalues).1 _ _ _ _ h⟩,
    (hleaf _ 9 l ⟨letterModel, "letter"⟩ ⟨"letter", rfl⟩ rfl).1 (.plain hplain)⟩

/-- The descendants of a scan are every letter. -/
theorem scan_has_descendants :
    let d : Domain := [.leaf ⟨"scan", .childOf, .value (.int 7)⟩]
    letterCompiler.registry.Valid ∧
      ∃ q' t', (letterCompiler.compile 9 "letter" d (.ofTable "letter")).run {} = ((.ok (), q'), t') ∧
        q'.conditions = [.literal true] :=
  ⟨valid_letters, _, _, rfl, rfl⟩

end Compile
end RecordFilter
