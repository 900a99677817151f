import RecordFilter.Proofs.Compile.NameSearches

/-! Leaves on references with names, and their negations. Each turns into a list of ids, that of the records which the
    database found by the operator or by its negation, and a negative one puts the unset reference into its list. So if
    the database parts the records that can be referred to, the two conditions part the records that refer to them. -/

namespace RecordFilter
open Sql

/-- The database compares integers of 64 bits by value. -/
def Sql.Engine.EqualsInts {V : Type} (e : Engine V) : Prop :=
  ∀ a b, Text.Fits a → Text.Fits b → e.equal (e.value (.int a)) (e.value (.int b)) = (a == b)

/-- Two lists have the ids of a set between them, and none in common. -/
structure PartsIds (ids : Set Int) (found rest : List Int) : Prop where
  bounded : ∀ id ∈ found, id ∈ ids
  mem_rest : ∀ id, id ∈ rest ↔ id ∈ ids ∧ id ∉ found

/-- After some calls, the names find some records of the model by an operator that fits them, and after some other calls
    they find all the others by its negation, records out of use among them. -/
def Backend.PartsByName (b : Backend) (history history' : List Call) (m : Model) (v : Json) (ids : Set Int) : Prop :=
  ∀ op op' : Operator, op.isPaired → op.isNegative = false → op.takesNames v.arr?.isSome → op.negate? = some op' →
    ∃ found rest,
      b.findByName history m v op { activeTest := false } = .ok found ∧
      b.findByName history' m v op' { activeTest := false } = .ok rest ∧
      PartsIds ids found rest

namespace Compile

/-! ### The operator for names -/

section
variable {op op' : Operator} (isList : Bool)

theorem isPaired_nameOperator (h : op.isPaired) : (nameOperator isList op).isPaired := by
  cases op <;> cases h <;> cases isList <;> rfl

theorem isNegative_nameOperator (h : op.isPaired) : (nameOperator isList op).isNegative = op.isNegative := by
  cases op <;> cases h <;> cases isList <;> rfl

theorem negate?_nameOperator (h : op.isPaired) (hop : op.negate? = some op') :
    (nameOperator isList op).negate? = some (nameOperator isList op') := by
  cases op <;> cases h <;> cases hop <;> cases isList <;> rfl

theorem takesNames_nameOperator (h : op.isPaired) : (nameOperator isList op).takesNames isList := by
  cases op <;> cases h <;> cases isList <;> rfl

end

/-! ### What the ids are compared by -/

/-- The ids that are found, and with a negative operator the unset reference. -/
def wantedIds (ids : List Int) (unset : Bool) : Wanted := { params := ids.map idParam, unset := unset }

theorem known_wantedIds (ids : List Int) (unset : Bool) : (wantedIds ids unset).Known := by
  intro param hparam
  obtain ⟨id, -, rfl⟩ := List.mem_map.mp hparam
  exact idParam_ne_null id

theorem addItems?_append (isBoolean : Bool) (w : Wanted) (items rest : List Json) :
    w.addItems? isBoolean (items ++ rest) = (w.addItems? isBoolean items).bind (·.addItems? isBoolean rest) := by
  induction items generalizing w with
  | nil => rfl
  | cons item items ih =>
    rw [List.cons_append, Wanted.addItems?, Wanted.addItems?]
    cases w.addItem? isBoolean item with
    | none => rfl
    | some w' => exact ih w'

/-- On a column without booleans `false` at the end of a list only asks for the unset reference. -/
theorem ofItems?_wantedIds (ids : List Int) (unset : Bool) :
    Wanted.ofItems? false (ids.map Json.int ++ if unset then [.bool false] else []) = some (wantedIds ids unset) := by
  have hids : Wanted.addItems? false {} (ids.map Json.int) = some { params := ids.map idParam } := ofItems?_ids false ids
  rw [Wanted.ofItems?, addItems?_append, hids]
  cases unset <;> rfl

/-- The condition that the reference is one of some ids, or unset. -/
def isAmong (column : Column) (ids : List Int) (unset : Bool) : Cond :=
  (wantedIds ids unset).condition (.column column) column true

section
variable {V : Type} {e : Engine V} {row : Row V} {column : Column} {ids : List Int} {unset : Bool}

theorem mem_params_isAmong (hids : ∀ id ∈ ids, Text.Fits id) {param : Param} :
    param ∈ (isAmong column ids unset).fragment.params ↔ ∃ id ∈ ids, param = .int id := by
  rw [isAmong, Wanted.params_condition, wantedIds, List.mem_map]
  refine exists_congr fun id => and_congr_right fun hid => ?_
  rw [idParam_of_fits (hids id hid), eq_comm]

/-- Without a reference the condition holds if it asks for the unset one. -/
theorem isAmong_of_none (hrow : row column = none) : ((isAmong column ids unset).truth e row).holds = unset := by
  have hholds : ((isAmong column ids unset).truth e row).holds = true ↔ _ := (known_wantedIds ids unset).holds_condition
  rw [hrow] at hholds
  exact Bool.eq_iff_iff.mpr hholds

/-- With one it holds if the reference is listed. -/
theorem isAmong_of_some (he : e.EqualsInts) (hids : ∀ id ∈ ids, Text.Fits id) {id : Int} (hid : Text.Fits id)
    (hrow : row column = some (e.value (.int id))) (unset : Bool) :
    ((isAmong column ids unset).truth e row).holds = true ↔ id ∈ ids := by
  have hholds : ((isAmong column ids unset).truth e row).holds = true ↔ _ := (known_wantedIds ids unset).holds_condition
  rw [hrow] at hholds
  refine hholds.trans ?_
  constructor
  · rintro ⟨param, hparam, heq⟩
    obtain ⟨x, hx, rfl⟩ := List.mem_map.mp hparam
    rw [idParam_of_fits (hids x hx), he id x hid (hids x hx), beq_iff_eq] at heq
    exact heq ▸ hx
  · intro hmem
    refine ⟨idParam id, List.mem_map_of_mem hmem, ?_⟩
    rw [idParam_of_fits hid, he id id hid hid, beq_self_eq_true]

end

/-! ### Leaves -/

section
variable {s : Setting} {build : QueryBuilder} {l : Leaf} {p : Place} {f : Field} {comodel : Model} {v : Json}

/-- A leaf with ids on a reference is emitted, whatever was called before. -/
theorem settles_ids (hr : s.registry.Valid) (hp : s.registry.Has p.model) {left : String}
    (hf : p.model.field? left = some f) (hstore : f.store) (htype : f.type = .many2one)
    (hcomodel : s.registry.comodel f = .ok comodel) (ids : List Int) (unset : Bool) :
    Settles s build 1 ⟨left, .within, .value (.arr (ids.map Json.int ++ if unset then [.bool false] else []))⟩ p
      (isAmong (p.column left) ids unset) := by
  have hkind : classifyField s.registry f = .ok (.many2one comodel) := by
    simp only [classifyField, hstore, htype, hcomodel, Bool.not_true, Bool.false_eq_true, if_false]
    rfl
  refine settles_emit (reduce_of_classify (by simp) ((classify_own hr hp hf rfl).trans hkind) ?_)
  simp only [reduceKind, reduceMany2one, Direction.ofOperator?, names?_ids, Option.isSome_none, Bool.false_eq_true, if_false]
  refine emitLeaf_yields ?_
  simp [plainCondition, hf, htype, literalLeaf, inValues, ofItems?_wantedIds, isAmong]

/-- A leaf that is replaced compiles with the condition of the leaf in its stead. -/
theorem Settles.compileWith_of_gives {n : Nat} {l' : Leaf} {cond : Cond} (h : Settles s build n l' p cond) {t t₁ : Trace}
    (hstep : (reduce s build l p).Gives t (.leaf l' p) t₁) {fuel : Nat} (hfuel : n + 1 ≤ fuel) {model : String}
    (hm : s.registry.model model = .ok p.model) {q : Query} (hq : q.tableAlias = p.tableAlias) :
    ∃ t', (Compiler.compileWith s build fuel model [.leaf l] q).run t = ((.ok (), q.addCondition cond), t') := by
  obtain ⟨left, rfl⟩ := Nat.exists_eq_add_of_le' hfuel
  obtain ⟨t₂, hmoves⟩ := h [] [] q left t₁
  have hon : (Compiler.compileOn s build (left + (n + 1)) p [.leaf l] q).run t = ((.ok cond, q), t₂) := by
    refine (Machine.outcome_leaf (left + n) l p [] [] q t).trans ?_
    rw [show (reduce s build l p).run t = _ from hstep]
    exact hmoves.trans (Machine.outcome_nil left [cond] q t₂)
  exact compileWith_of_compileOn hm hq hon

/-- A leaf with names on a reference becomes one with the ids that the database finds. -/
theorem reduce_gives_ids (build : QueryBuilder) (h : GivesNames s.registry p.model l f comodel v) (htype : f.type = .many2one)
    (hr : s.registry.Valid) (hp : s.registry.Has p.model) (hpaired : l.op.isPaired) {t : Trace} {ids : List Int}
    (hfound : s.backend.findByName t.calls comodel v (nameOperator v.arr?.isSome l.op) { activeTest := false } = .ok ids) :
    ∃ t', (reduce s build l p).Gives t (.leaf ⟨l.left, .within, .value (.arr (ids.map Json.int ++
      if l.op.isNegative then [.bool false] else []))⟩ p) t' := by
  rw [h.reduce_eq build hr hp, htype]
  dsimp only
  rw [reduceMany2one_names build h.not_hierarchy h.value h.names, isNegative_nameOperator _ hpaired]
  exact ⟨_, Run.gives_bind.mpr ⟨ids, _, Run.gives_nameSearch hfound, rfl⟩⟩

/-- So it compiles with the condition that the reference is one of them. -/
theorem compile_names (build : QueryBuilder) (h : GivesNames s.registry p.model l f comodel v) (htype : f.type = .many2one)
    (hr : s.registry.Valid) (hp : s.registry.Has p.model) (hpaired : l.op.isPaired) {t : Trace} {ids : List Int}
    (hfound : s.backend.findByName t.calls comodel v (nameOperator v.arr?.isSome l.op) { activeTest := false } = .ok ids)
    {fuel : Nat} (hfuel : 2 ≤ fuel) {model : String} (hm : s.registry.model model = .ok p.model)
    {q : Query} (hq : q.tableAlias = p.tableAlias) :
    ∃ t', (Compiler.compileWith s build fuel model [.leaf l] q).run t =
      ((.ok (), q.addCondition (isAmong (p.column l.left) ids l.op.isNegative)), t') := by
  obtain ⟨t₁, hstep⟩ := reduce_gives_ids build h htype hr hp hpaired hfound
  exact (settles_ids hr hp h.field h.store htype h.comodel ids l.op.isNegative).compileWith_of_gives hstep hfuel hm hq

end

/-- Over an accepted registry, a leaf with names on a stored reference of the model and its negation compile. If the
    database parts the records that can be referred to, by the operator that fits the names and by its negation, then on
    every row whose reference is one of these records or unset just one of the two conditions is true: the positive one
    where the reference is a record that the search for the names found, the negative one where it is another record or
    unset. Nothing is bound but ids of these records. -/
theorem compile_names_part (c : Compiler) (hr : c.registry.Valid) {model : String} {m : Model}
    (hm : c.registry.model model = .ok m) {left : String} {f : Field} (hf : m.field? left = some f) (hstore : f.store)
    (htype : f.type = .many2one) {comodel : Model} (hcomodel : c.registry.comodel f = .ok comodel) {v : Json}
    (hv : (names? v).isSome) {op op' : Operator} (hpaired : op.isPaired) (hpositive : op.isNegative = false)
    (hop : op.negate? = some op') {ids : Set Int} (hids : ∀ id ∈ ids, Text.Fits id) {t u : Trace}
    (hb : c.backend.PartsByName t.calls u.calls comodel v ids) {fuel : Nat} (hfuel : 2 ≤ fuel) (q : Query) :
    ∃ found cond cond',
      c.backend.findByName t.calls comodel v (nameOperator v.arr?.isSome op) { activeTest := false } = .ok found ∧
      (∃ t₁, (c.compile fuel model [.leaf ⟨left, op, .value v⟩] q).run t = ((.ok (), q.addCondition cond), t₁)) ∧
      (∃ u₁, (c.compile fuel model [.leaf ⟨left, op', .value v⟩] q).run u = ((.ok (), q.addCondition cond'), u₁)) ∧
      (∀ param ∈ cond.fragment.params ++ cond'.fragment.params, ∃ id ∈ ids, param = .int id) ∧
      ∀ {V : Type} (e : Engine V) (row : Row V), e.EqualsInts →
        (∀ a, row ⟨q.tableAlias, left⟩ = some a → ∃ id ∈ ids, a = e.value (.int id)) →
        (cond'.truth e row).holds = !(cond.truth e row).holds ∧
        (∀ id ∈ ids, row ⟨q.tableAlias, left⟩ = some (e.value (.int id)) →
          ((cond.truth e row).holds = true ↔ id ∈ found)) ∧
        (row ⟨q.tableAlias, left⟩ = none → (cond.truth e row).holds = false ∧ (cond'.truth e row).holds = true) := by
  have hhas : c.registry.Has m := Registry.has_of_model hm
  have hpaired' : op'.isPaired := Operator.isPaired_negate hpaired hop
  have hnegative : op'.isNegative = true := by rw [Operator.isNegative_negate hpaired hop, hpositive]; rfl
  have names : ∀ {o : Operator}, o.isPaired → GivesNames c.registry m ⟨left, o, .value v⟩ f comodel v := fun ho =>
    ⟨hf, hstore, by rw [htype]; rfl, hcomodel, rfl, hv, Operator.isHierarchy_of_isPaired ho,
      Operator.ne_eqIfSet_of_isPaired ho⟩
  obtain ⟨found, rest, hfound, hrest, hparts⟩ := hb _ _ (isPaired_nameOperator v.arr?.isSome hpaired)
    ((isNegative_nameOperator _ hpaired).trans hpositive) (takesNames_nameOperator _ hpaired)
    (negate?_nameOperator _ hpaired hop)
  have hfits : ∀ id ∈ found, Text.Fits id := fun id hid => hids id (hparts.bounded id hid)
  have hfits' : ∀ id ∈ rest, Text.Fits id := fun id hid => hids id ((hparts.mem_rest id).mp hid).1
  refine ⟨found, isAmong ⟨q.tableAlias, left⟩ found false, isAmong ⟨q.tableAlias, left⟩ rest true, hfound, ?_, ?_,
    fun param hparam => ?_, fun e row he hrow => ⟨?_, fun id hid hcolumn => ?_, fun hcolumn => ?_⟩⟩
  · have hcompile := compile_names (s := c.setting c.context) (p := ⟨m, q.tableAlias⟩) (c.queryIn fuel)
      (names hpaired) htype hr hhas hpaired hfound hfuel hm rfl
    rwa [hpositive] at hcompile
  · have hcompile := compile_names (s := c.setting c.context) (p := ⟨m, q.tableAlias⟩) (c.queryIn fuel)
      (names hpaired') htype hr hhas hpaired' hrest hfuel hm rfl
    rwa [hnegative] at hcompile
  · rcases List.mem_append.mp hparam with hparam | hparam
    · obtain ⟨id, hid, rfl⟩ := (mem_params_isAmong hfits).mp hparam
      exact ⟨id, hparts.bounded id hid, rfl⟩
    · obtain ⟨id, hid, rfl⟩ := (mem_params_isAmong hfits').mp hparam
      exact ⟨id, ((hparts.mem_rest id).mp hid).1, rfl⟩
  · cases hcolumn : row ⟨q.tableAlias, left⟩ with
    | none => rw [isAmong_of_none hcolumn, isAmong_of_none hcolumn, Bool.not_false]
    | some a =>
      obtain ⟨id, hid, rfl⟩ := hrow a hcolumn
      have hholds := isAmong_of_some he hfits (hids id hid) hcolumn false
      have hholds' := isAmong_of_some he hfits' (hids id hid) hcolumn true
      rw [Bool.eq_iff_iff, hholds', hparts.mem_rest, Bool.not_eq_true', ← Bool.not_eq_true, hholds]
      exact and_iff_right hid
  · exact isAmong_of_some he hfits (hids id hid) hcolumn false
  · exact ⟨isAmong_of_none hcolumn, isAmong_of_none hcolumn⟩

/-- A compiler for clerks, of whom there are two. The database looks names up by itself: whatever the name is, it is
    that of the first one. -/
def rosterCompiler : Compiler where
  registry := clerkCompiler.registry
  backend := { Backend.offline with nameSearch := some fun _ _ _ op _ => .ok (if op.isNegative then [2] else [1]) }
  context := clerkCompiler.context

theorem equalsInts_datum : Datum.engine.EqualsInts := by
  intro a b _ _
  simp [Datum.engine, Bool.beq_eq_decide_eq]

/-- Clerks with a manager from a list of names, who is the first clerk, and all the others: those whose manager is the
    second clerk, and those without a manager. -/
theorem compile_names_part_clerks :
    let c := rosterCompiler
    let ids : Set Int := {1, 2}
    let names : Json := .arr [.str "Ada", .str "Bob"]
    c.registry.Valid ∧ c.registry.model "clerk" = .ok clerkModel ∧
      clerkModel.field? "manager" = some (Field.many2one "manager" "clerk") ∧ (names? names).isSome ∧
      (∀ id ∈ ids, Text.Fits id) ∧ c.backend.PartsByName [] [] clerkModel names ids ∧
      ∃ cond cond',
        (∃ t, (c.compile 2 "clerk" [.leaf ⟨"manager", .eq, .value names⟩] (.ofTable "clerk")).run {} =
          ((.ok (), (Query.ofTable "clerk").addCondition cond), t)) ∧
        (∃ t, (c.compile 2 "clerk" [.leaf ⟨"manager", .ne, .value names⟩] (.ofTable "clerk")).run {} =
          ((.ok (), (Query.ofTable "clerk").addCondition cond'), t)) ∧
        ∀ (row : Row Datum) (manager : Option Int), (∀ id ∈ manager, id ∈ ids) →
          row ⟨"clerk", "manager"⟩ = manager.map .number →
          (cond.truth Datum.engine row).holds = decide (manager = some 1) ∧
            (cond'.truth Datum.engine row).holds = decide (manager ≠ some 1) := by
  intro c ids names
  have hm : c.registry.model "clerk" = .ok clerkModel := rfl
  have hf : clerkModel.field? "manager" = some (Field.many2one "manager" "clerk") := rfl
  have hids : ∀ id ∈ ids, Text.Fits id := by
    rintro id (rfl | rfl) <;> decide
  have hparts : c.backend.PartsByName [] [] clerkModel names ids := by
    intro op op' hpaired hpositive _ hop
    have hnegative : op'.isNegative = true := by rw [Operator.isNegative_negate hpaired hop, hpositive]; rfl
    refine ⟨[1], [2], ?_, ?_, ?_, ?_⟩
    · show Except.ok (if op.isNegative then [2] else [1]) = _
      rw [hpositive]
      rfl
    · show Except.ok (if op'.isNegative then [2] else [1]) = _
      rw [hnegative]
      rfl
    · intro id hid
      exact .inl (List.mem_singleton.mp hid)
    · intro id
      constructor
      · intro hid
        cases List.mem_singleton.mp hid
        exact ⟨.inr rfl, by decide⟩
      · rintro ⟨rfl | rfl, hother⟩
        · exact absurd (List.mem_singleton_self 1) hother
        · exact List.mem_singleton_self 2
  have hcomodel : c.registry.comodel (Field.many2one "manager" "clerk") = .ok clerkModel := rfl
  have hnames : (names? names).isSome := rfl
  have hop : Operator.eq.negate? = some .ne := rfl
  obtain ⟨found, cond, cond', hfound, hcond, hcond', -, hrows⟩ :=
    compile_names_part (t := {}) (u := {}) c valid_clerks hm hf rfl rfl hcomodel hnames rfl rfl hop hids hparts
      (Nat.le_refl 2) (.ofTable "clerk")
  obtain rfl : [1] = found := Except.ok.inj hfound
  refine ⟨valid_clerks, hm, hf, rfl, hids, hparts, cond, cond', hcond, hcond', fun row manager hmanager hrow => ?_⟩
  obtain ⟨hopposite, hsome, hnone⟩ := hrows Datum.engine row equalsInts_datum fun a ha => by
    cases manager with
    | none => cases hrow.symm.trans ha
    | some id => exact ⟨id, hmanager id rfl, (Option.some.inj (hrow.symm.trans ha)).symm⟩
  have hholds : (cond.truth Datum.engine row).holds = decide (manager = some 1) := by
    cases manager with
    | none => exact (hnone hrow).1
    | some id =>
      rw [Bool.eq_iff_iff, hsome id (hmanager id rfl) hrow, List.mem_singleton, decide_eq_true_iff, Option.some.injEq]
  refine ⟨hholds, ?_⟩
  rw [hopposite, hholds, decide_not]

end Compile
end RecordFilter
