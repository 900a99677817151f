import RecordFilter.Proofs.Compile.Databases
import RecordFilter.Proofs.Compile.EmptySets
import RecordFilter.Proofs.Compile.InUse

/-! Records out of use are left out by a leaf beside the domain. The domain is the part on the right of the conjunction,
    so it is compiled first, into a query without joins, just as if it stood alone; the leaf then finds a query with
    the joins of the domain, and can only add to them. -/

namespace RecordFilter
open Sql

namespace Sql.Query

/-- Some of the joins are added, in their order. -/
theorem foldl_addJoin_joins (joins : List Join) (q : Query) :
    ∃ more, (joins.foldl addJoin q).joins = q.joins ++ more ∧ more.Sublist joins := by
  induction joins generalizing q with
  | nil => exact ⟨[], (List.append_nil _).symm, .slnil⟩
  | cons j joins ih =>
    obtain ⟨more, hmore, hsub⟩ := ih (q.addJoin j)
    rw [List.foldl_cons, hmore, addJoin]
    split
    · exact ⟨more, rfl, hsub.cons j⟩
    · exact ⟨j :: more, List.append_assoc _ _ _, hsub.cons_cons j⟩

theorem foldl_addJoin_extends (joins : List Join) (q : Query) : q.Extends (joins.foldl addJoin q) := by
  induction joins generalizing q with
  | nil => exact .refl q
  | cons j joins ih => exact (Extends.addJoin q j).trans (ih _)

/-- The second query is the first one with the records left out on which a column is not true, and with joins for the
    column. -/
structure Filtered (q₀ q : Query) (column : Column) (joins : List Join) : Prop where
  sql : q.condition.fragment.sql = "(" ++ ("(" ++ column.text ++ " = %s)") ++ " AND " ++ q₀.condition.fragment.sql ++ ")"
  params : q.condition.fragment.params = .bool true :: q₀.condition.fragment.params
  joins : ∃ more, q.joins = q₀.joins ++ more ∧ more.Sublist joins
  others : q.table = q₀.table ∧ q.tableAlias = q₀.tableAlias ∧ q.window = q₀.window

end Sql.Query

namespace Compile

variable {c : Compiler} {ctx : Context} {p : Place} {d d₁ d₂ : Domain} {q q' : Query} {t t' : Trace} {cond : Cond}

/-! ### Enough fuel -/

/-- With enough fuel, the domain at the place has the condition, and the query gets joins for it. -/
def CompilesTo (c : Compiler) (ctx : Context) (p : Place) (d : Domain) (q : Query) (t : Trace) (cond : Cond)
    (q' : Query) (t' : Trace) : Prop :=
  ∃ fuel, (Compiler.compileOn (c.setting ctx) (c.queryIn fuel) fuel p d q).run t = ((.ok cond, q'), t')

/-- More fuel changes nothing, neither for the domain nor for the queries inside it. -/
theorem CompilesTo.eventually (h : CompilesTo c ctx p d q t cond q' t') :
    ∃ bound, ∀ fuel ≥ bound,
      (Compiler.compileOn (c.setting ctx) (c.queryIn fuel) fuel p d q).run t = ((.ok cond, q'), t') := by
  obtain ⟨bound, hon⟩ := h
  refine ⟨bound, fun fuel hfuel => ?_⟩
  have hbuild := queryIn_repeats c c.backend.covers_refl hfuel
  exact (compileOn_repeats (s := c.setting ctx) c.backend.covers_refl hbuild hfuel hon).1

theorem CompilesTo.unique {cond₁ : Cond} {q₁ : Query} {t₁ : Trace} (h : CompilesTo c ctx p d q t cond q' t')
    (h₁ : CompilesTo c ctx p d q t cond₁ q₁ t₁) : cond₁ = cond ∧ q₁ = q' := by
  obtain ⟨bound, hon⟩ := h.eventually
  obtain ⟨bound₁, hon₁⟩ := h₁.eventually
  have heq := (hon₁ _ (Nat.le_max_right bound bound₁)).symm.trans (hon _ (Nat.le_max_left bound bound₁))
  cases heq
  exact ⟨rfl, rfl⟩

/-- The loop and the recursion give the same. -/
theorem compilesTo_iff_tree {a : Term Leaf} (hd : Domain.distributeNot d = .ok a.spell) :
    CompilesTo c ctx p d q t cond q' t' ↔
      ∃ fuel, treeOutcome (c.setting ctx) (c.queryIn fuel) fuel (a.map (·, p)) q t = ((.ok cond, q'), t') := by
  constructor
  · rintro ⟨fuel, hon⟩
    refine ⟨fuel, ?_⟩
    rw [← hon, compileOn_eq_domain (Nat.le_refl fuel) p d q t (hon ▸ nofun), domain_eq_term hd]
  · rintro ⟨fuel, htree⟩
    rw [treeOutcome, ← domain_eq_term hd] at htree
    have hfin : Finished ((Assembly.conditions.domain (c.setting ctx) (c.queryIn fuel) fuel p d).outcome q t) := by
      rw [htree]
      exact nofun
    obtain ⟨bound, hbound⟩ := domain_eq_compileOn p d q t hfin
    have hon := (hbound _ (Nat.le_max_left bound fuel)).trans htree
    have hbuild := queryIn_repeats c c.backend.covers_refl (Nat.le_max_right bound fuel)
    exact ⟨_, (compileOn_repeats (s := c.setting ctx) c.backend.covers_refl hbuild (Nat.le_refl _) hon).1⟩

theorem CompilesTo.tree_eventually {a : Term Leaf} (hd : Domain.distributeNot d = .ok a.spell)
    (h : CompilesTo c ctx p d q t cond q' t') :
    ∃ bound, ∀ fuel ≥ bound,
      treeOutcome (c.setting ctx) (c.queryIn fuel) fuel (a.map (·, p)) q t = ((.ok cond, q'), t') := by
  obtain ⟨bound, hon⟩ := h.eventually
  refine ⟨bound, fun fuel hfuel => ?_⟩
  rw [← hon fuel hfuel, compileOn_eq_domain (Nat.le_refl fuel) p d q t (hon fuel hfuel ▸ nofun), domain_eq_term hd]

/-! ### Conjunctions -/

/-- A conjunction compiles where its parts do, the one on the right first and the one on the left into the query that
    the other has left. -/
theorem compilesTo_and {a b : Term Leaf} (hd : Domain.distributeNot d = .ok (Term.and a b).spell)
    (h₁ : Domain.distributeNot d₁ = .ok a.spell) (h₂ : Domain.distributeNot d₂ = .ok b.spell) :
    CompilesTo c ctx p d q t cond q' t' ↔
      ∃ left right q₁ t₁, CompilesTo c ctx p d₂ q t right q₁ t₁ ∧ CompilesTo c ctx p d₁ q₁ t₁ left q' t' ∧
        cond = .and left right := by
  constructor
  · intro h
    obtain ⟨fuel, htree⟩ := (compilesTo_iff_tree hd).mp h
    rw [show (Term.and a b).map (·, p) = .and (a.map (·, p)) (b.map (·, p)) from rfl, treeOutcome_and] at htree
    obtain ⟨left, right, q₁, t₁, hright, hleft, hcond⟩ := combined_ok htree
    exact ⟨left, right, q₁, t₁, (compilesTo_iff_tree h₂).mpr ⟨fuel, hright⟩,
      (compilesTo_iff_tree h₁).mpr ⟨fuel, hleft⟩, hcond⟩
  · rintro ⟨left, right, q₁, t₁, hright, hleft, rfl⟩
    obtain ⟨bound, hright⟩ := hright.tree_eventually h₂
    obtain ⟨bound', hleft⟩ := hleft.tree_eventually h₁
    refine (compilesTo_iff_tree hd).mpr ⟨max bound bound', ?_⟩
    rw [show (Term.and a b).map (·, p) = .and (a.map (·, p)) (b.map (·, p)) from rfl, treeOutcome_and, combined,
      hright _ (Nat.le_max_left _ _)]
    dsimp only
    rw [hleft _ (Nat.le_max_right _ _)]

/-- A leaf on an inherited field has the condition that it settles with at the place of the field. -/
theorem compilesTo_leaf {l : Leaf} {p' : Place} {joins : List Join} {n : Nat}
    (hl : ∀ build, Settles (c.setting ctx) build n l p' cond) (hp : Delegates c.registry l.path.1 p joins p')
    (hop : l.op ≠ .eqIfSet) (q : Query) (t : Trace) :
    ∃ t', CompilesTo c ctx p [.leaf l] q t cond (joins.foldl .addJoin q) t' := by
  have hmoves := (Delegates.moves (s := c.setting ctx) hp (c.queryIn (n + joins.length)) hop [] [] q).trans
    (hl _ [] [] _)
  have hon : ∃ t', (Compiler.compileOn (c.setting ctx) (c.queryIn (n + joins.length)) (n + joins.length) p [.leaf l]
      q).run t = ((.ok cond, joins.foldl .addJoin q), t') := compileOn_of_moves rfl hmoves (Nat.le_refl _) t
  exact hon.imp fun _ h => ⟨_, h⟩

/-! ### Requests -/

section
variable {model : String} {m : Model}

/-- A compilation succeeds where the domain compiles, and its condition is added to the query. -/
theorem compile_iff (hm : c.registry.model model = .ok m) :
    (∃ fuel t', (c.compile fuel model d q).run t = ((.ok (), q'), t')) ↔
      ∃ cond q₁ t₁, CompilesTo c c.context ⟨m, q.tableAlias⟩ d q t cond q₁ t₁ ∧ q' = q₁.addCondition cond := by
  constructor
  · rintro ⟨fuel, t', h⟩
    obtain ⟨m', cond, q₁, t₁, hm', hon, hq, -⟩ := compile_gives h
    cases hm.symm.trans hm'
    exact ⟨cond, q₁, t₁, ⟨fuel, hon⟩, hq⟩
  · rintro ⟨cond, q₁, t₁, ⟨fuel, hon⟩, rfl⟩
    exact ⟨fuel, compileWith_of_compileOn (p := ⟨m, q.tableAlias⟩) hm rfl hon⟩

/-- A query is built where its domain, with the filter if there is one, compiles on the model's table. -/
theorem query_iff {e : Domain} (hm : c.registry.model model = .ok m) (he : withActive c.registry ctx m d = .ok e)
    (hne : e.isEmpty = false) :
    (∃ fuel t', (c.queryIn fuel ctx model d).Gives t q t') ↔
      ∃ cond q₁ t₁, CompilesTo c ctx ⟨m, m.table⟩ e (.ofTable m.table) t cond q₁ t₁ ∧ q = q₁.addCondition cond := by
  constructor
  · rintro ⟨fuel, t', hgives⟩
    cases fuel with
    | zero => cases hgives
    | succ fuel =>
      rw [Run.Gives, queryIn_run hm he hne] at hgives
      rcases hon : (Compiler.compileOn (c.setting ctx) (c.queryIn fuel) fuel ⟨m, m.table⟩ e (.ofTable m.table)).run t with
        ⟨⟨stop | cond, q₁⟩, t₁⟩ <;> rw [hon] at hgives <;> cases hgives
      exact ⟨cond, q₁, t₁, ⟨fuel, hon⟩, rfl⟩
  · rintro ⟨cond, q₁, t₁, ⟨fuel, hon⟩, rfl⟩
    have hrun := queryIn_run hm he hne fuel t
    rw [hon] at hrun
    exact ⟨fuel + 1, _, hrun⟩

/-! ### The filter -/

section
variable {active : String} {joins : List Join} {place : Place} {f : Field} {ts : List (Term Leaf)}

/-- Compiling a domain beside the filter is compiling the domain and then adding the filter and its joins. -/
theorem compilesTo_beside (hr : c.registry.Valid) (hm : c.registry.Has p.model)
    (hp : Delegates c.registry active p joins place) (hf : place.model.field? active = some f)
    (htype : f.type = .boolean) (hstore : f.store = true) (hts : Domain.terms? d = some ts) :
    (∃ t', CompilesTo c ctx p (Term.and (.leaf (inUseLeaf active)) (Term.conj ts)).spell q t cond q' t') ↔
      ∃ right q₁ t₁, CompilesTo c ctx p d q t right q₁ t₁ ∧
        cond = .and (.group (.compare (.column (place.column active)) .eq (.bool true) false)) right ∧
        q' = joins.foldl .addJoin q₁ := by
  have hplace : c.registry.Has place.model := Delegates.has (s := c.setting ctx) hp hm
  have hpath : Delegates c.registry (inUseLeaf active).path.1 p joins place := by
    rw [path_inUse hr hplace hf]
    exact hp
  have hleaf := compilesTo_leaf (inUse_settles (s := c.setting ctx) hr hplace hf htype hstore) hpath (op_inUse active)
  have hboth : Domain.distributeNot (Term.and (.leaf (inUseLeaf active)) (Term.conj ts)).spell =
      .ok (Term.and (.leaf (inUseLeaf active)) ((Term.conj ts).inward false)).spell :=
    Domain.distributeNot_of_terms? (Domain.terms?_spell _)
  have hfilter : Domain.distributeNot [.leaf (inUseLeaf active)] = .ok (Term.leaf (inUseLeaf active)).spell := rfl
  have hdomain := Domain.distributeNot_of_terms? hts
  constructor
  · rintro ⟨t', h⟩
    obtain ⟨left, right, q₁, t₁, hright, hleft, rfl⟩ := (compilesTo_and hboth hfilter hdomain).mp h
    obtain ⟨_, hsettled⟩ := hleaf q₁ t₁
    obtain ⟨rfl, rfl⟩ := hsettled.unique hleft
    exact ⟨right, q₁, t₁, hright, rfl, rfl⟩
  · rintro ⟨right, q₁, t₁, hright, rfl, rfl⟩
    obtain ⟨t', hsettled⟩ := hleaf q₁ t₁
    exact ⟨t', (compilesTo_and hboth hfilter hdomain).mpr ⟨_, right, q₁, t₁, hright, hsettled, rfl⟩⟩

/-- So does the query of the domain. -/
theorem query_beside_iff {ctx : Context} (hr : c.registry.Valid) (hm : c.registry.model model = .ok m)
    (hp : Delegates c.registry active ⟨m, m.table⟩ joins place) (hf : place.model.field? active = some f)
    (htype : f.type = .boolean) (hstore : f.store = true) (hts : Domain.terms? d = some ts)
    (he : withActive c.registry ctx m d = .ok (Term.and (.leaf (inUseLeaf active)) (Term.conj ts)).spell) :
    (∃ fuel t', (c.queryIn fuel ctx model d).Gives t q t') ↔
      ∃ right q₁ t₁, CompilesTo c ctx ⟨m, m.table⟩ d (.ofTable m.table) t right q₁ t₁ ∧
        q = (joins.foldl .addJoin q₁).addCondition
          (.and (.group (.compare (.column (place.column active)) .eq (.bool true) false)) right) := by
  have hbeside : ∀ cond q', (∃ t', CompilesTo c ctx ⟨m, m.table⟩ _ (.ofTable m.table) t cond q' t') ↔ _ :=
    fun cond q' => compilesTo_beside hr (Registry.has_of_model hm) hp hf htype hstore hts
  rw [query_iff hm he rfl]
  constructor
  · rintro ⟨cond, q', t', h, rfl⟩
    obtain ⟨right, q₁, t₁, hright, rfl, rfl⟩ := (hbeside cond q').mp ⟨t', h⟩
    exact ⟨right, q₁, t₁, hright, rfl⟩
  · rintro ⟨right, q₁, t₁, hright, rfl⟩
    obtain ⟨t', h⟩ := (hbeside _ _).mpr ⟨right, q₁, t₁, hright, rfl, rfl⟩
    exact ⟨_, _, t', h, rfl⟩

theorem CompilesTo.extends (h : CompilesTo c ctx p d q t cond q' t') : q.Extends q' := by
  obtain ⟨fuel, hon⟩ := h
  exact compileOn_extends hon

/-- The filter beside the condition of a domain. -/
theorem filtered {right : Cond} {q₁ : Query} (hq : q₁.conditions = []) (column : Column) (joins : List Join) :
    (q₁.addCondition right).Filtered ((joins.foldl .addJoin q₁).addCondition
      (.and (.group (.compare (.column column) .eq (.bool true) false)) right)) column joins := by
  have hext := Query.foldl_addJoin_extends joins q₁
  have hcondition : ∀ {q : Query} {cond : Cond}, q.conditions = [] → (q.addCondition cond).condition = cond := by
    intro q cond hnone
    rw [Query.condition, Query.addCondition, hnone]
    rfl
  have hfragment : (Cond.and (.group (.compare (.column column) .eq (.bool true) false)) right).fragment =
      ⟨"(" ++ ("(" ++ column.text ++ " = %s)") ++ " AND " ++ right.fragment.sql ++ ")",
        .bool true :: right.fragment.params⟩ := by
    refine (conditions_maps_texts.and _ right).symm.trans ?_
    rw [Fragment.ext_iff]
    have hkeyword : Operator.eq.keyword = "=" := by decide
    simp only [Assembly.texts, Cond.fragment, Expr.fragment, unaccented, Fragment.param, hkeyword]
    constructor
    · simp [String.append_assoc]
    · rfl
  refine ⟨?_, ?_, Query.foldl_addJoin_joins joins q₁, hext.table, hext.tableAlias, hext.window⟩
  · rw [hcondition hq, hcondition (hext.conditions.trans hq), hfragment]
  · rw [hcondition hq, hcondition (hext.conditions.trans hq), hfragment]

end

/-- Where the field that says whether a record is in use is a boolean with a column, the query of a domain that has no
    leaf on it succeeds just where the domain compiles alone. It has the condition of the domain with the filter in
    front, and the joins of the domain followed by joins on the way to the field. If the domain has such a leaf, the
    query is that of the domain alone, or fails as that does. -/
theorem query_filtered (c : Compiler) (hr : c.registry.Valid) (hm : c.registry.model model = .ok m)
    (htest : c.context.activeTest = true) {active : String} (hactive : c.registry.activeField? m = some active)
    {joins : List Join} {place : Place} {f : Field} (hp : Delegates c.registry active ⟨m, m.table⟩ joins place)
    (hf : place.model.field? active = some f) (htype : f.type = .boolean) (hstore : f.store = true) {n : Domain}
    (hd : d.normalize = .ok n) (hne : d ≠ []) (halways : d ≠ [.true]) (hnever : d ≠ [.false]) (t : Trace) :
    ((∀ l ∈ d.leaves, l.left ≠ active) →
      ((∃ fuel q t', (c.query fuel model d).Gives t q t') ↔
        ∃ fuel q₀ t₀, (c.compile fuel model d (.ofTable m.table)).run t = ((.ok (), q₀), t₀)) ∧
      ∀ fuel q t' fuel₀ q₀ t₀, (c.query fuel model d).Gives t q t' →
        (c.compile fuel₀ model d (.ofTable m.table)).run t = ((.ok (), q₀), t₀) →
        q₀.Filtered q (place.column active) joins) ∧
    ((∃ l ∈ d.leaves, l.left = active) → ∀ fuel,
      (c.query (fuel + 1) model d).run t =
        match (c.compile fuel model d (.ofTable m.table)).run t with
        | ((.ok (), q), t') => (.ok q, t')
        | ((.error stop, _), t') => (.error stop, t')) := by
  obtain ⟨ts, hts, -⟩ := Domain.normalize_eq_ok hd
  refine ⟨fun hunmentioned => ?_, fun hmentioned fuel => ?_⟩
  · have he := withActive_of_unmentioned htest hactive hunmentioned hts hne halways hnever
    have hbeside : ∀ q, (∃ fuel t', (c.query fuel model d).Gives t q t') ↔ _ := fun q =>
      query_beside_iff hr hm hp hf htype hstore hts he
    have halone : ∀ q₀, (∃ fuel t₀, (c.compile fuel model d (.ofTable m.table)).run t = ((.ok (), q₀), t₀)) ↔ _ :=
      fun q₀ => compile_iff hm
    refine ⟨⟨?_, ?_⟩, fun fuel q t' fuel₀ q₀ t₀ hquery hcompile => ?_⟩
    · rintro ⟨fuel, q, t', hquery⟩
      obtain ⟨right, q₁, t₁, hright, -⟩ := (hbeside q).mp ⟨fuel, t', hquery⟩
      obtain ⟨fuel₀, t₀, hcompile⟩ := (halone _).mpr ⟨right, q₁, t₁, hright, rfl⟩
      exact ⟨fuel₀, _, t₀, hcompile⟩
    · rintro ⟨fuel₀, q₀, t₀, hcompile⟩
      obtain ⟨right, q₁, t₁, hright, -⟩ := (halone q₀).mp ⟨fuel₀, t₀, hcompile⟩
      obtain ⟨fuel, t', hquery⟩ := (hbeside _).mpr ⟨right, q₁, t₁, hright, rfl⟩
      exact ⟨fuel, _, t', hquery⟩
    · obtain ⟨right, q₁, t₁, hright, rfl⟩ := (hbeside q).mp ⟨fuel, t', hquery⟩
      obtain ⟨right', q₁', t₁', hright', rfl⟩ := (halone q₀).mp ⟨fuel₀, t₀, hcompile⟩
      obtain ⟨rfl, rfl⟩ := hright.unique hright'
      exact filtered hright.extends.conditions _ joins
  · have he : withActive c.registry c.context m d = .ok d := withActive_of_mentioned hactive hmentioned
    rw [Compiler.query, queryIn_run hm he (List.isEmpty_eq_false_iff.mpr hne), Compiler.compile,
      compileWith_run (c.setting c.context) (c.queryIn fuel) hm,
      show (Query.ofTable m.table).tableAlias = m.table from rfl]
    rcases (Compiler.compileOn (c.setting c.context) (c.queryIn fuel) fuel ⟨m, m.table⟩ d (.ofTable m.table)).run t with
      ⟨⟨stop | cond, q₁⟩, t₁⟩ <;> rfl

/-- Members with a code, filtered as persons. -/
theorem members_filtered :
    let c := memberCompiler cardModel
    let d : Domain := [.leaf ⟨"code", .eq, .value (.str "A")⟩]
    let join := Query.joinThrough "member" "person_id" "person" "id" "person_id"
    c.registry.Valid ∧ c.registry.activeField? memberModel = some "active" ∧
      Delegates c.registry "active" ⟨memberModel, "member"⟩ [join] ⟨personModel, "member__person_id"⟩ ∧
      ∃ q t q₀ t₀, (c.query 9 "member" d).Gives {} q t ∧
        (c.compile 9 "member" d (.ofTable "member")).run {} = ((.ok (), q₀), t₀) ∧
        q₀.Filtered q ⟨"member__person_id", "active"⟩ [join] := by
  intro c d join
  have hresolve : c.registry.resolve? memberModel "active" = some (.inherited personModel "person_id") := rfl
  have hp : Delegates c.registry "active" ⟨memberModel, "member"⟩ [join] ⟨personModel, "member__person_id"⟩ :=
    .parent (p := ⟨memberModel, "member"⟩) hresolve (.here _)
  have hquery : ((c.query 9 "member" d).run {}).1.isOk = true := by decide +kernel
  have hcompile : ((c.compile 9 "member" d (.ofTable "member")).run {}).1.1.isOk = true := by decide +kernel
  rcases h : (c.query 9 "member" d).run {} with ⟨stop | q, t⟩ <;> rw [h] at hquery
  · cases hquery
  obtain ⟨q₀, t₀, h₀⟩ : ∃ q₀ t₀, (c.compile 9 "member" d (.ofTable "member")).run {} = ((.ok (), q₀), t₀) := by
    rcases h₀ : (c.compile 9 "member" d (.ofTable "member")).run {} with ⟨⟨stop | ⟨⟩, q₀⟩, t₀⟩ <;> rw [h₀] at hcompile
    · cases hcompile
    · exact ⟨q₀, t₀, rfl⟩
  have halways : d ≠ [.true] ∧ d ≠ [.false] := by simp [d]
  refine ⟨valid_members, rfl, hp, q, t, q₀, t₀, h, h₀, ?_⟩
  exact ((query_filtered c valid_members (m := memberModel) (d := d) rfl rfl rfl hp rfl rfl rfl rfl
    (List.cons_ne_nil _ _) halways.1 halways.2 {}).1 (by decide)).2 9 q t 9 q₀ t₀ h h₀

end

end Compile
end RecordFilter
