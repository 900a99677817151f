import RecordFilter.Proofs.Compile.Additions
import RecordFilter.Proofs.Compile.Balance
import RecordFilter.Proofs.Compile.Databases
import RecordFilter.Proofs.Sql.Delimiters

/-! Conditions keep to themselves. Where the subqueries in a domain close what they open, every condition that comes up
    in a compilation is a truth value, an `EXISTS`, or a text in parentheses that close last what was opened first. So
    conditions can be joined with `AND` and put behind `NOT` as they are, without a change to how they are grouped. -/

namespace RecordFilter
open Sql

/-- A subquery closes the quotes and parentheses that it opens. -/
def Operand.Closed : Operand → Prop
  | value _ => True
  | subquery s => Sql.Closed s.fragment.sql

/-- All subqueries in the domain are closed. -/
def Domain.Closed (d : Domain) : Prop := ∀ l ∈ d.leaves, l.right.Closed

/-- Search hooks answer a closed operand with a closed domain. -/
def Registry.HooksClosed (r : Registry) : Prop :=
  ∀ name hook, r.hook? name = some hook → ∀ m op operand d, operand.Closed → hook m op operand = .ok d → d.Closed

namespace Sql.Query

/-- Every condition of the query is delimited, and it gives all its rows in no order. -/
structure Grouped (q : Query) : Prop where
  conditions : ∀ c ∈ q.conditions, Delimited c.fragment.sql
  window : q.window = {}

namespace Grouped
variable {q : Query}

theorem condition_closed (h : q.Grouped) : Closed q.condition.fragment.sql :=
  Query.condition_of (C := fun c => Closed c.fragment.sql) (literal_delimited true).closed
    (fun ha hb => (ha.append (show Closed " AND " by decide)).append hb) fun c hc => (h.conditions c hc).closed

theorem subselect (h : q.Grouped) (c : Column) : Closed (q.subselect (.column c)).fragment.sql := by
  unfold Query.subselect
  rw [h.window]
  exact rows_closed c q.tables h.condition_closed

theorem addCondition (h : q.Grouped) {c : Cond} (hc : Delimited c.fragment.sql) : (q.addCondition c).Grouped := by
  refine ⟨fun c' hc' => ?_, h.window⟩
  rcases List.mem_append.mp hc' with hc' | hc'
  · exact h.conditions c' hc'
  · rw [List.mem_singleton.mp hc']
    exact hc

theorem ofExtends {q' : Query} (h : q.Grouped) (hq : q.Extends q') : q'.Grouped :=
  ⟨hq.conditions ▸ h.conditions, hq.window.trans h.window⟩

end Grouped
end Sql.Query

namespace Compile

variable {s : Setting} {build : QueryBuilder} {l : Leaf} {p : Place}

/-! ### Conditions of leaves -/

section
variable {c : Cond} {ctx : Context} {column : Column} {v : Json} {isBoolean unaccent : Bool}

/-- The text of the condition is closed, and delimited unless it is a bare comparison. -/
structure Encloses (c : Cond) : Prop where
  closed : Closed c.fragment.sql
  delimited : c.isUnit → Delimited c.fragment.sql

theorem Encloses.of_delimited (h : Delimited c.fragment.sql) : Encloses c := ⟨h.closed, fun _ => h⟩

theorem Encloses.bare (h : Closed c.fragment.sql) (hc : c.isUnit = false) : Encloses c :=
  ⟨h, fun hunit => absurd hunit (by rw [hc]; nofun)⟩

theorem columnConditions_encloses (column : Column) : ColumnConditions Encloses column where
  literal b := .of_delimited (literal_delimited b)
  isNull := .bare (isNull_closed column) rfl
  notNull := .bare (notNull_closed column) rfl
  isFalse := .bare (isFalse_closed column) rfl
  notFalse := .bare (notFalse_closed column) rfl
  compare param unaccent _ _ _ := .bare (compare_closed _ _ param unaccent) rfl
  member positive params _ := .bare (member_closed _ positive (params_closed params)) rfl
  group h := .of_delimited (group_delimited h.closed)
  and ha hb := .of_delimited (and_delimited ha.closed hb.closed)
  or ha hb := .of_delimited (or_delimited ha.closed hb.closed)

theorem isUnit_wanted (w : Wanted) (left : Expr) (column : Column) (positive : Bool) :
    (w.condition left column positive).isUnit := by
  unfold Wanted.condition
  split <;> rfl

theorem isUnit_inValues (h : inValues l column v isBoolean = .ok c) : c.isUnit := by
  unfold inValues at h
  dsimp only at h
  split at h
  · cases h
    rfl
  · split at h <;> cases h
    exact isUnit_wanted _ _ _ _
  · cases h

theorem isUnit_inSubquery {sub : Select} (h : inSubquery l column sub = .ok c) : c.isUnit := by
  unfold inSubquery at h
  split at h <;> cases h <;> rfl

theorem isUnit_comparison (h : comparison l column v unaccent = .ok c) : c.isUnit := by
  unfold comparison at h
  dsimp only at h
  split at h
  · cases h
  · split at h <;> cases h <;> rfl

theorem isUnit_equality (h : equality l column v isBoolean unaccent = .ok c) : c.isUnit := by
  unfold equality at h
  split at h
  · cases h
    rfl
  · cases h
    rfl
  · cases h
    rfl
  · cases h
    rfl
  · cases h
    rfl
  · exact isUnit_comparison h

theorem isUnit_literalLeaf (h : literalLeaf l column v isBoolean unaccent = .ok c) : c.isUnit := by
  unfold literalLeaf at h
  split at h
  · exact isUnit_inValues h
  · exact isUnit_inValues h
  · cases h
  · cases h
  · split at h
    · cases h
      rfl
    · split at h
      · exact isUnit_equality h
      · exact isUnit_comparison h
  · split at h
    · exact isUnit_equality h
    · exact isUnit_comparison h
  · split at h
    · exact isUnit_equality h
    · exact isUnit_comparison h
  · exact isUnit_comparison h

theorem isUnit_plainCondition (h : plainCondition l p ctx = .ok c) : c.isUnit := by
  unfold plainCondition at h
  split at h
  · cases h
  · split at h
    · exact isUnit_inSubquery h
    · exact isUnit_literalLeaf h

theorem isUnit_translatedCondition (h : translatedCondition l p ctx = .ok c) : c.isUnit := by
  unfold translatedCondition at h
  dsimp only at h
  split at h
  · cases h
  · split at h
    · split at h
      · split at h <;> cases h
        exact isUnit_wanted _ _ _ _
      · cases h
    · split at h <;> cases h
      split <;> rfl

theorem plainCondition_delimited (hl : l.right.Closed) (h : plainCondition l p ctx = .ok c) :
    Delimited c.fragment.sql := by
  refine ((columnConditions_encloses _).of_plainCondition (fun sub hsub positive => ?_) h).delimited
    (isUnit_plainCondition h)
  rw [hsub] at hl
  have hset : Closed (Values.select sub).fragment.sql := by
    rw [Values.fragment]
    exact hl
  exact .bare (member_closed _ positive hset) rfl

theorem translatedCondition_delimited (h : translatedCondition l p ctx = .ok c) : Delimited c.fragment.sql :=
  ((columnConditions_encloses _).of_translatedCondition (fun _ => .bare (compare_closed _ _ _ _) rfl) h).delimited
    (isUnit_translatedCondition h)

end

/-! ### Steps -/

/-- Queries for closed domains are grouped. -/
def GroupedBuilder (build : QueryBuilder) : Prop :=
  ∀ ctx model d q, d.Closed → Builds build ctx model d q → q.Grouped

/-- A token whose operand, if it has one, is closed. -/
def Work.Closed (w : Work) : Prop := ∀ l, w.token = .leaf l → l.right.Closed

/-- Conditions are delimited and operands closed; nothing is asked of the query. -/
abbrev Step.Delimited : Step → Prop := Step.Keeps Work.Closed (fun c => Sql.Delimited c.fragment.sql) fun _ => True

theorem Work.closed_ofDomain {d : Domain} (h : d.Closed) : ∀ w ∈ Work.ofDomain p d, w.Closed := fun w hw =>
  (Work.operands_ofDomain h w hw).2

theorem leaf_delimited (h : l.right.Closed) : (Step.leaf l p).Delimited := by
  intro w hw
  rw [List.mem_singleton.mp hw]
  exact Work.operand_leaf h

theorem Finds.closed (hbuild : GroupedBuilder build) {ctx : Context} {model : String} {d : Domain} (hd : d.Closed)
    {found : Found} (h : Finds build ctx model d found) : found.operand.Closed := by
  cases h with
  | nothing => trivial
  | rows hq =>
    have hquery := hbuild _ _ _ _ hd hq
    show Sql.Closed (inIdOrder _).ids.fragment.sql
    rw [ids_inIdOrder hquery.window]
    exact hquery.subselect _

theorem passes_closed (hbuild : GroupedBuilder build) : Passes s build Operand.Closed where
  value _ := trivial
  found _ hd hf := hf.closed hbuild hd

theorem ofIds_closed (ids : List Int) : Closed (Values.ofIds ids).fragment.sql := params_closed _

theorem Owners.closed (hl : l.right.Closed) {comodel : Model} {inverse : Field} {operand : Operand}
    (h : Owners l comodel inverse operand) : operand.Closed := by
  cases h with
  | all => exact references_closed _ _
  | ids ids => exact owners_closed _ _ (ofIds_closed ids)
  | operand hsub =>
    rw [hsub] at hl
    refine owners_closed _ _ ?_
    rw [Values.fragment]
    exact hl
  | read ids => trivial

theorem linkedTo_delimited {name : String} {relation : Relation} {positive : Bool} {related : Related}
    (h : ∀ sub, related = .rows sub → Closed sub.fragment.sql) :
    Delimited (linkedTo p name relation positive related).fragment.sql := by
  unfold linkedTo
  split
  · exact literal_delimited _
  · exact linked_delimited _ _ (ofIds_closed _)
  · rename_i sub
    refine linked_delimited _ _ ?_
    rw [Values.fragment]
    exact h sub rfl

/-- A leaf with a closed operand becomes leaves with closed operands, or a delimited condition. -/
theorem Reduces.delimited (hhooks : s.registry.HooksClosed) (hbuild : GroupedBuilder build) (hl : l.right.Closed)
    {step : Step} (h : Reduces s build l p step) : step.Delimited := by
  have domain : ∀ {d e : Domain}, d.Closed → Domain.distributeNot d = .ok e →
      (Step.requeue (Work.ofDomain p e)).Delimited := fun hd he =>
    Work.closed_ofDomain (Domain.operands_distributeNot hd he)
  have hpasses : Passes s build Operand.Closed := passes_closed hbuild
  cases h with
  | holds => exact literal_delimited true
  | noLines negative => exact literal_delimited negative
  | equal _ => exact leaf_delimited hl
  | inherited _ => exact ⟨fun _ _ => trivial, Work.operand_leaf hl⟩
  | joined _ => exact ⟨fun _ _ => trivial, Work.operand_leaf hl⟩
  | lines _ _ hq => exact leaf_delimited ((hbuild _ _ _ _ (Domain.operands_ofLeaf hl) hq).subselect _)
  | path _ ho => exact leaf_delimited (ho.passes hpasses (Domain.operands_ofLeaf hl))
  | hook _ hhook ho hd he => exact domain (hhooks _ _ hhook _ _ _ _ (ho.passes hpasses hl) hd) he
  | hierarchy _ hd he => exact domain (hd.operands hpasses) he
  | @heldLines _ _ ids _ _ he =>
    have hids : (Operand.value (.ofIds ids)).Closed := trivial
    exact domain (Domain.operands_ofLeaf hids) he
  | owners _ _ _ ho => exact leaf_delimited (ho.closed hl)
  | relatives _ hd hf => exact leaf_delimited (hf.closed hbuild (hd.operands hpasses.value))
  | linkedFound _ _ hd hf =>
    refine linkedTo_delimited fun sub hsub => ?_
    have hfound := hf.closed hbuild (hd.operands hpasses.value)
    cases hf with
    | nothing _ => cases hsub
    | rows _ =>
      cases hsub
      exact hfound
  | linked _ _ _ hn => exact linkedTo_delimited fun sub hsub => hn.passes (P := Operand.Closed) hl hsub
  | anyLink _ _ _ => exact leaf_delimited (references_closed _ _)
  | named _ _ => exact leaf_delimited trivial
  | attached _ _ => exact leaf_delimited (attached_closed _ _ _)
  | widened _ hw =>
    obtain ⟨date, time, -, -, rfl⟩ := widenDate?_eq_some hw
    exact leaf_delimited trivial
  | plain hc => exact plainCondition_delimited hl hc
  | translated _ hc => exact translatedCondition_delimited hc

theorem inductive_delimited (hhooks : s.registry.HooksClosed) (hbuild : GroupedBuilder build) :
    Inductive s build Work.Closed (fun c => Delimited c.fragment.sql) fun _ => True where
  literal := literal_delimited
  and ha hb := and_delimited ha.closed hb.closed
  or ha hb := or_delimited ha.closed hb.closed
  not hc := not_delimited hc.closed
  reduce hw h := (reduce_meets.gives h).delimited hhooks hbuild (hw _ rfl)

theorem compileOn_delimited (hhooks : s.registry.HooksClosed) (hbuild : GroupedBuilder build) {d : Domain}
    (hd : d.Closed) {fuel : Nat} {q q' : Query} {t t' : Trace} {c : Cond}
    (h : (Compiler.compileOn s build fuel p d q).run t = ((.ok c, q'), t')) : Delimited c.fragment.sql :=
  (compileOn_keeps (inductive_delimited hhooks hbuild)
    (fun _ he => Work.closed_ofDomain (Domain.operands_distributeNot hd he)) trivial h).1

/-! ### Queries -/

theorem queryIn_grouped (c : Compiler) (hhooks : c.registry.HooksClosed) (fuel : Nat) :
    GroupedBuilder (c.queryIn fuel) := by
  have ofTable : ∀ table, (Query.ofTable table).Grouped := fun table => ⟨nofun, rfl⟩
  induction fuel with
  | zero =>
    rintro ctx model d q - ⟨t, t', h⟩
    cases h
  | succ fuel ih =>
    rintro ctx model d q hd ⟨t, t', h⟩
    obtain ⟨m, e, -, he, ⟨-, rfl⟩ | ⟨-, cond, q', tr', hon, rfl⟩⟩ := queryIn_gives h
    · exact ofTable m.table
    · have hclosed := operands_withActive (P := Operand.Closed) (fun _ => trivial) hd he
      have hcond := compileOn_delimited (s := c.setting ctx) hhooks ih hclosed hon
      exact ((ofTable m.table).ofExtends (compileOn_extends hon)).addCondition hcond

/-! ### Requests -/

/-- Over a registry whose search hooks answer closed operands with closed domains, a closed domain is compiled to
    delimited conditions: all that wait on the way, for the domain and in the queries inside the query, and the one that
    is added to the query; the operands that are still to do stay closed. From outside, the condition of the whole query
    shows the units that were joined in it, with `AND` between them, and so `NOT` applies to a whole unit. -/
theorem conditions_delimited (c : Compiler) (hhooks : c.registry.HooksClosed) (fuel : Nat) {d : Domain}
    (hd : d.Closed) :
    (∀ ctx p e q machine, Domain.distributeNot d = .ok e →
      Machine.Reaches (c.setting ctx) (c.queryIn fuel) (Machine.start p e q) machine →
        (∀ cond ∈ machine.results, Delimited cond.fragment.sql) ∧
          ∀ w ∈ machine.work, ∀ l, w.token = .leaf l → l.right.Closed) ∧
    (∀ model q q' t t', (c.compile fuel model d q).run t = ((.ok (), q'), t') →
      ∃ cond, q'.conditions = q.conditions ++ [cond] ∧ Delimited cond.fragment.sql ∧
        ((∀ old ∈ q.conditions, Delimited old.fragment.sql) → outline q'.condition.fragment.sql =
          " AND ".intercalate (q'.conditions.map fun cond => outline cond.fragment.sql))) ∧
    (∀ ctx model q', Builds (c.queryIn fuel) ctx model d q' → ∀ cond ∈ q'.conditions, Delimited cond.fragment.sql) ∧
    ∀ s, Delimited s → outline s ∈ units ∧ outline ("NOT " ++ s) = "NOT " ++ outline s := by
  have hbuild := queryIn_grouped c hhooks fuel
  refine ⟨fun ctx p e q machine he hreach => ?_, fun model q q' t t' h => ?_,
    fun ctx model q' hq' => (hbuild ctx model d q' hd hq').conditions,
    fun s hs => ⟨hs.outline_mem, Delimited.outline_negated s⟩⟩
  · have hwork := Work.closed_ofDomain (p := p) (Domain.operands_distributeNot hd he)
    have hstart : (Machine.start p e q).Keeps Work.Closed (fun c => Delimited c.fragment.sql) fun _ => True :=
      ⟨fun w hw => hwork w (List.mem_reverse.mp hw), nofun, trivial⟩
    have hkeeps := hreach.keeps (inductive_delimited (s := c.setting ctx) hhooks hbuild) hstart
    exact ⟨hkeeps.results, hkeeps.work⟩
  · obtain ⟨m, cond, q₁, t₁, -, hon, rfl, -⟩ := compile_gives h
    have hcond := compileOn_delimited (s := c.setting c.context) hhooks hbuild hd hon
    have hold : q₁.conditions = q.conditions := (compileOn_extends hon).conditions
    have hconditions : (q₁.addCondition cond).conditions = q.conditions ++ [cond] := by
      rw [← hold]
      rfl
    refine ⟨cond, hconditions, hcond, fun h => Query.outline_condition ?_ fun c hc => ?_⟩
    · rw [hconditions]
      exact List.concat_ne_nil cond q.conditions
    · rw [hconditions] at hc
      rcases List.mem_append.mp hc with hc | hc
      · exact h c hc
      · rw [List.mem_singleton.mp hc]
        exact hcond

/-- The open tasks and those with a note, where a text with a parenthesis is looked for, and which a hook looks up. -/
theorem conditions_delimited_tasks :
    let notes : Select := .text ⟨"SELECT task FROM note WHERE (text = ':)')", []⟩
    let d : Domain := [.or, .leaf ⟨"open", .eq, .value (.bool true)⟩, .leaf ⟨"id", .within, .subquery notes⟩]
    openTaskCompiler.registry.HooksClosed ∧ d.Closed ∧
      ∃ q' t' cond, (openTaskCompiler.compile 9 "task" d (.ofTable "task")).run {} = ((.ok (), q'), t') ∧
        q'.conditions = [cond] ∧ Delimited cond.fragment.sql ∧ outline q'.condition.fragment.sql = "()" := by
  intro notes d
  have hhooks : openTaskCompiler.registry.HooksClosed := by
    intro name hook hhook m op operand d hoperand hd
    by_cases hname : "search_open" = name
    · subst hname
      cases (Keyed.find?_insert_self ..).symm.trans hhook
      cases hd
      exact Domain.operands_ofLeaf (P := Operand.Closed) hoperand
    · cases (Keyed.find?_insert_of_ne _ hname _).symm.trans hhook
  have hd : d.Closed := by
    intro l hl
    rcases List.mem_cons.mp hl with rfl | hl
    · trivial
    · rw [List.mem_singleton.mp hl]
      show Closed "SELECT task FROM note WHERE (text = ':)')"
      decide
  obtain ⟨-, hcompile, -, -⟩ := conditions_delimited openTaskCompiler hhooks 9 hd
  have hok : ((openTaskCompiler.compile 9 "task" d (.ofTable "task")).run {}).1.1.isOk := by decide +kernel
  have hunit : outline ((openTaskCompiler.compile 9 "task" d (.ofTable "task")).run {}).1.2.condition.fragment.sql =
      "()" := by decide +kernel
  rcases h : (openTaskCompiler.compile 9 "task" d (.ofTable "task")).run {} with ⟨⟨stop | ⟨⟩, q'⟩, t'⟩ <;>
    rw [h] at hok hunit
  · cases hok
  · obtain ⟨cond, hconditions, hcond, -⟩ := hcompile _ _ _ _ _ h
    exact ⟨hhooks, hd, q', t', cond, rfl, hconditions, hcond, hunit⟩

/-- As many parentheses are opened outside of quotes as are closed, while a quote may stay open. -/
def Matched (s : String) : Bool := (Cursor.read? {} s.toList).any (·.depth = 0)

/-- A hook that knows the ids of the open tasks, and closes a parenthesis too many. -/
def strayTaskCompiler : Compiler where
  registry :=
    { models := Keyed.empty.insert "task" openTaskModel
      hooks := Keyed.empty.insert "search_open" fun _ _ _ =>
        .ok (.ofLeaf "id" .within (.subquery (.text ⟨"SELECT 1)", []⟩))) }
  context := taskCompiler.context

/-- A quote that a subquery leaves open takes in the parentheses around it; and a hook brings in a parenthesis of its
    own, though the domain has no subquery. -/
theorem open_quote_takes_parentheses :
    let operand : Select := .text ⟨"SELECT \"id", []⟩
    let o := (taskCompiler.compile 9 "task" [.leaf ⟨"id", .within, .subquery operand⟩] (.ofTable "task")).run {}
    let o' := (strayTaskCompiler.compile 9 "task" [.leaf ⟨"open", .eq, .value (.bool true)⟩] (.ofTable "task")).run {}
    taskCompiler.registry.Valid ∧ Matched operand.fragment.sql ∧ o.1.1.isOk ∧
      o.1.2.conditions.map (·.fragment.sql) = ["(\"task\".\"id\" IN (SELECT \"id))"] ∧
      Matched "(\"task\".\"id\" IN (SELECT \"id))" = false ∧
      strayTaskCompiler.registry.Valid ∧ o'.1.1.isOk ∧
      o'.1.2.conditions.map (·.fragment.sql) = ["(\"task\".\"id\" IN (SELECT 1)))"] ∧
      Matched "(\"task\".\"id\" IN (SELECT 1)))" = false := by
  intro operand o o'
  have hvalid : strayTaskCompiler.registry.Valid :=
    ⟨.registerHook "search_open" _ (.register (m := openTaskModel) .empty rfl), rfl⟩
  have hquote : o.1.1.isOk ∧ o.1.2.conditions.map (·.fragment.sql) = ["(\"task\".\"id\" IN (SELECT \"id))"] := by
    decide +kernel
  have hhook : o'.1.1.isOk ∧ o'.1.2.conditions.map (·.fragment.sql) = ["(\"task\".\"id\" IN (SELECT 1)))"] := by
    decide +kernel
  exact ⟨valid_tasks, by decide, hquote.1, hquote.2, by decide, hvalid, hhook.1, hhook.2, by decide⟩

end Compile
end RecordFilter
