import RecordFilter.Proofs.Compile.InUse
import RecordFilter.Proofs.Compile.NegatedPaths
import RecordFilter.Proofs.Compile.PlainDomains
import RecordFilter.Proofs.Compile.Walks
import RecordFilter.Proofs.Sql.Joins

/-! Hierarchies, from the leaf to the records that are selected. Where a model stores paths, a query selects what is
    shown of all that is related to the roots. Where it has links only, records out of use that are hidden from the
    caller are hidden from the walk too, and nothing below them is selected. -/

namespace RecordFilter

namespace Sql

/-- Characters that a pattern takes as they stand, the same with and without accents. -/
def isPathChar (c : Char) : Bool := Text.isDigit c || c = '-' || c = '/'

/-- How the values of stored paths compare: integers by value, a text with the pattern of all that starts with another
    by what it starts with. Neither a cast to text nor leaving out accents changes a path. -/
structure Engine.ReadsPaths {V : Type} (e : Engine V) : Prop where
  equal_int : ∀ a b, Text.Fits a → Text.Fits b → e.equal (e.value (.int a)) (e.value (.int b)) = (a == b)
  asText : ∀ s, e.asText (e.value (.text s)) = e.value (.text s)
  unaccent : ∀ s : String, s.toList.all (fun c => isPathChar c || c = '%') →
    e.unaccent (e.value (.text s)) = e.value (.text s)
  like : ∀ s p : String, p.toList.all isPathChar →
    (e.like (e.value (.text s)) (e.value (.text (p ++ "%"))) = true ↔ p.toList <+: s.toList)

end Sql

namespace Compile
open Sql

/-- A compiler and a database for a model whose table holds a forest, and whose records are in use as a field says. -/
structure Stores {V : Type} (c : Compiler) (db : Database V) (m : Model) (inUse : Field) (F : Forest)
    (row : Node → Record V) : Prop where
  valid : c.registry.Valid
  has : c.registry.Has m
  knows : c.backend.Knows m F
  reads : db.base.ReadsPaths
  records : db.records m.table = F.nodes.map row
  idField : m.field? "id" = some { name := "id", type := .integer }
  id : ∀ n ∈ F.nodes, row n "id" = some (db.base.value (.int n.id))
  pathField : m.parentStore = true → m.field? "parent_path" = some { name := "parent_path", type := .char }
  path : m.parentStore = true → ∀ n ∈ F.nodes, row n "parent_path" = some (db.base.value (.text n.path))
  activeField : c.registry.activeField? m = some inUse.name
  inUseField : m.field? inUse.name = some inUse ∧ inUse.type = .boolean ∧ inUse.store = true
  inUse : ∀ n ∈ F.nodes, row n inUse.name = some (db.base.value (.bool n.active))

/-! ### Leaves -/

section
variable {V : Type} {db : Database V} {row : Row V} {p : Place} {ctx : Context}

theorem isPathChar_path (n : Node) : n.path.toList.all isPathChar = true := by
  rw [Node.path, String.toList_ofList, List.all_eq_true]
  intro c hc
  rcases of_mem_pathText hc with h | rfl | rfl
  · simp [isPathChar, h]
  · rfl
  · rfl

theorem plainCondition_startsWith {f : Field} (hf : p.model.field? "parent_path" = some f) (path : String) :
    plainCondition (startsWith path) p ctx =
      .ok (.group (.compare (.cast (p.column "parent_path")) .eqLike (.text (path ++ "%")) ctx.unaccent)) := by
  unfold plainCondition startsWith
  rw [hf]
  simp [literalLeaf, comparison, Operator.isPattern, Operator.isContains, Operator.isNegative, Param.ofJson?]

/-- On the row of a record, such a leaf holds where the path of the record starts with the other one. -/
theorem holds_startsWith (hdb : db.base.ReadsPaths) {n k : Node}
    (hrow : row (p.column "parent_path") = some (db.base.value (.text n.path))) :
    ((Cond.group (.compare (.cast (p.column "parent_path")) .eqLike (.text (k.path ++ "%")) ctx.unaccent)).truth
      db.engine row).holds = true ↔ k.path.toList <+: n.path.toList := by
  have hpath : db.base.unaccent (db.base.value (.text n.path)) = db.base.value (.text n.path) :=
    hdb.unaccent _ (by
      have := isPathChar_path n
      simp_all [List.all_eq_true])
  have hpattern : db.base.unaccent (db.base.value (.text (k.path ++ "%"))) = db.base.value (.text (k.path ++ "%")) :=
    hdb.unaccent _ (by
      have := isPathChar_path k
      rw [String.toList_append, List.all_append]
      simp_all [List.all_eq_true])
  rw [← hdb.like _ _ (isPathChar_path k)]
  show (db.base.compare .eqLike (db.base.plain ctx.unaccent ((row (p.column "parent_path")).map db.base.asText))
    (db.base.plain ctx.unaccent (some (db.base.value (.text (k.path ++ "%")))))).holds = true ↔ _
  rw [hrow, Option.map_some, hdb.asText]
  cases ctx.unaccent <;> simp [Engine.plain, hpath, hpattern, Engine.test]

theorem holds_inUse {name : String} {b : Bool} (hrow : row (p.column name) = some (db.base.value (.bool b))) :
    ((Cond.group (.compare (.column (p.column name)) .eq (.bool true) false)).truth db.engine row).holds = b := by
  show (db.base.compare .eq (row (p.column name)) (some (db.base.value (.bool true)))).holds = b
  rw [hrow, Engine.compare_some, Truth.holds_ofBool]
  exact (db.base.equal_bool b true).trans (by cases b <;> rfl)

/-- On the row of a record, a list of ids holds where it has the id of the record. -/
theorem holds_ids (hdb : db.base.ReadsPaths) {n : Node} (hn : Text.Fits n.id) {ids : List Int}
    (hids : ∀ x ∈ ids, Text.Fits x) (hrow : row (p.column "id") = some (db.base.value (.int n.id))) :
    ((withinIds p ids).truth db.engine row).holds = true ↔ n.id ∈ ids := by
  have hequals : ∀ x ∈ ids,
      (db.base.equals (row ⟨p.tableAlias, "id"⟩) (db.base.bound (idParam x)) = true ↔ n.id = x) := by
    intro x hx
    rw [idParam_of_fits (hids x hx), show row ⟨p.tableAlias, "id"⟩ = _ from hrow]
    show (Truth.ofBool (db.base.equal _ _)).holds = true ↔ _
    rw [Truth.holds_ofBool, hdb.equal_int _ _ hn (hids x hx), beq_iff_eq]
  refine (holds_withinIds db row p ids).trans ⟨?_, fun hmem => ⟨n.id, hmem, (hequals _ hmem).mpr rfl⟩⟩
  rintro ⟨x, hx, heq⟩
  exact (hequals x hx).mp heq ▸ hx

end

/-! ### Compiling the leaf -/

section
variable {V : Type} {c : Compiler} {db : Database V} {m : Model} {inUse : Field} {F : Forest} {row : Node → Record V}
  {P : Node → Prop} {dir : Direction} {op : Operator} {roots : List Int}

/-- The machine gives a condition for the tokens, one that holds on the rows of the records in question. -/
def Machine.Finds (c : Compiler) (db : Database V) (m : Model) (F : Forest) (row : Node → Record V) (P : Node → Prop)
    (ws : List Work) : Prop :=
  ∀ q tr, ∃ cond tr', Machine.Clears (c.setting c.context) (fun _ => True) ws q tr ((.ok cond, q), tr') ∧
    ∀ n ∈ F.nodes, (cond.truth db.engine ((row n).under m.table)).holds = true ↔ P n

/-- Leaves that are emitted at once. -/
theorem finds_of_emit {t : Term Leaf} (ht : t.Positive)
    (hemit : ∀ l ∈ t.leaves, ∀ build tr, (reduce (c.setting c.context) build l ⟨m, m.table⟩).run tr =
      (.ok (.emit (leafCondition c.context ⟨m, m.table⟩ l)), tr))
    (hholds : ∀ n ∈ F.nodes, (t.eval fun l =>
      ((leafCondition c.context ⟨m, m.table⟩ l).truth db.engine ((row n).under m.table)).holds) = true ↔ P n) :
    Machine.Finds c db m F row P (Work.ofDomain ⟨m, m.table⟩ t.spell) := by
  intro q tr
  refine ⟨t.condition (leafCondition c.context ⟨m, m.table⟩), tr,
    ⟨t.spell.length, fun build _ fuel rest results => ?_⟩, ?_⟩
  · exact outcome_of_emit t (fun l hl => hemit l hl build) fuel rest results q tr
  · intro n hn
    rw [Term.holds_condition _ ht]
    exact hholds n hn

/-- With a conjunction in front, the tokens of both parts answer both questions. -/
theorem Machine.Finds.and {Q : Node → Prop} {ws us : List Work} {p : Place} (hP : Finds c db m F row P ws)
    (hQ : Finds c db m F row Q us) : Finds c db m F row (fun n => P n ∧ Q n) (⟨.and, p⟩ :: (ws ++ us)) := by
  intro q tr
  obtain ⟨right, tr₁, hright, hholds⟩ := hQ q tr
  obtain ⟨left, tr₂, hleft, hholds'⟩ := hP q tr₁
  refine ⟨.and left right, tr₂, ?_, fun n hn => ?_⟩
  · have hclears : Clears (c.setting c.context) (fun _ => True) (⟨.and, p⟩ :: (ws ++ us)) q tr
        (combined .and (fun _ _ => ((.ok left, q), tr₂)) (fun _ _ => ((.ok right, q), tr₁)) q tr) :=
      .combined (fun _ _ _ _ _ _ _ _ => rfl) hright fun _ _ _ heq => by
        cases heq
        exact hleft
    exact hclears
  · rw [Cond.truth, Truth.holds_and, Bool.and_eq_true, hholds n hn, hholds' n hn]

namespace Stores

/-- A leaf on a plain column is emitted at once. -/
theorem emits (h : Stores c db m inUse F row) {l : Leaf} {f : Field} {cond : Cond} (hf : m.field? l.left = some f)
    (hkind : classifyField c.registry f = .ok .plain) (hop : l.op.isHierarchy = false) (hset : l.op ≠ .eqIfSet)
    (hc : plainCondition l ⟨m, m.table⟩ c.context = .ok cond) (hnotice : leafNotice? l = none) (build : QueryBuilder)
    (tr : Trace) :
    (reduce (c.setting c.context) build l ⟨m, m.table⟩).run tr =
      (.ok (.emit (leafCondition c.context ⟨m, m.table⟩ l)), tr) := by
  have hclass : classify c.registry m l = .ok .plain := (classify_own h.valid h.has hf hop).trans hkind
  rw [leafCondition, hc]
  exact reduce_run_of_plain hset hclass hc hnotice tr

/-- The domain of a hierarchy compiles to a condition for the records that it asks for. -/
theorem finds (h : Stores c db m inUse F row) {d : Domain} (hd : AsksFor m F P d) :
    ∃ e, Domain.distributeNot d = .ok e ∧ Machine.Finds c db m F row P (Work.ofDomain ⟨m, m.table⟩ e) := by
  cases hd with
  | @ids ids hfits hids =>
    have hc : plainCondition ⟨"id", .within, .value (.ofIds ids)⟩ ⟨m, m.table⟩ c.context =
        .ok (withinIds ⟨m, m.table⟩ ids) := plainCondition_ids h.idField ids true c.context
    refine ⟨_, Domain.distributeNot_of_positive (t := .leaf ⟨"id", .within, .value (.ofIds ids)⟩) trivial,
      finds_of_emit trivial (fun l hl => ?_) fun n hn => ?_⟩
    · cases List.mem_singleton.mp hl
      exact h.emits h.idField rfl rfl (by simp) hc rfl
    · show ((leafCondition c.context ⟨m, m.table⟩ _).truth _ _).holds = true ↔ _
      rw [leafCondition, hc, ← hids n hn]
      exact holds_ids h.reads (F.fits n hn) hfits (((row n).under_column m.table "id").trans (h.id n hn))
  | @paths paths hstore hstored hpaths =>
    have hc : ∀ path, plainCondition (startsWith path) ⟨m, m.table⟩ c.context = _ :=
      plainCondition_startsWith (p := ⟨m, m.table⟩) (h.pathField hstore)
    have hpositive : (Term.disj ((paths.map startsWith).map .leaf)).Positive := Term.positive_disj fun t ht => by
      obtain ⟨l, -, rfl⟩ := List.mem_map.mp ht
      trivial
    refine ⟨_, Domain.distributeNot_of_positive hpositive, finds_of_emit hpositive (fun l hl => ?_) fun n hn => ?_⟩
    · rw [Term.leaves_disj] at hl
      obtain ⟨t, ht, hl⟩ := List.mem_flatMap.mp hl
      obtain ⟨l', hl', rfl⟩ := List.mem_map.mp ht
      obtain ⟨path, -, rfl⟩ := List.mem_map.mp hl'
      cases List.mem_singleton.mp hl
      exact h.emits (h.pathField hstore) rfl rfl (by simp [startsWith]) (hc path) rfl
    · rw [Term.eval_disj, ← hpaths n hn]
      simp only [List.any_map, List.any_eq_true]
      refine exists_congr fun path => and_congr_right fun hpath => ?_
      obtain ⟨k, hk, rfl⟩ := hstored path hpath
      show ((leafCondition c.context ⟨m, m.table⟩ (startsWith k.path)).truth _ _).holds = true ↔ _
      rw [leafCondition, hc]
      exact holds_startsWith h.reads (((row n).under_column m.table "parent_path").trans (h.path hstore n hn))

/-- The leaf of the records in use. -/
theorem finds_inUse (h : Stores c db m inUse F row) :
    Machine.Finds c db m F row (fun n => n.active = true) [⟨.leaf (inUseLeaf inUse.name), ⟨m, m.table⟩⟩] := by
  obtain ⟨hf, htype, hstore⟩ := h.inUseField
  have hkind : classifyField c.registry inUse = .ok .plain := by
    have htranslate : inUse.translate = false := h.valid.translate_eq_false h.has hf (by rw [htype]; rfl)
    simp [classifyField, htype, hstore, htranslate]
  have hc : plainCondition (inUseLeaf inUse.name) ⟨m, m.table⟩ c.context = _ :=
    plainCondition_inUse (p := ⟨m, m.table⟩) hf htype
  refine finds_of_emit (t := .leaf (inUseLeaf inUse.name)) trivial (fun l hl => ?_) fun n hn => ?_
  · cases List.mem_singleton.mp hl
    exact h.emits hf hkind rfl (by simp [inUseLeaf]) hc rfl
  · show ((leafCondition c.context ⟨m, m.table⟩ (inUseLeaf inUse.name)).truth _ _).holds = true ↔ _
    rw [leafCondition, hc, holds_inUse (((row n).under_column m.table inUse.name).trans (h.inUse n hn))]

/-- A leaf on the id with a hierarchy becomes the domain of the hierarchy. -/
theorem reduce_hierarchy (h : Stores c db m inUse F row) (hdir : Direction.ofOperator? op = some dir)
    (hroots : ∀ r ∈ roots, Text.Fits r) (hne : roots ≠ []) {d e : Domain} {tr tr' : Trace}
    (hgives : (hierarchy (c.setting c.context) dir roots m none).Gives tr d tr') (he : Domain.distributeNot d = .ok e)
    (build : QueryBuilder) :
    (reduce (c.setting c.context) build ⟨"id", op, .value (.ofIds roots)⟩ ⟨m, m.table⟩).run tr =
      (.ok (.requeue (Work.ofDomain ⟨m, m.table⟩ e)), tr') := by
  have hop : op ≠ .eqIfSet ∧ op.isHierarchy = true := by
    cases op <;> cases hdir <;> exact ⟨nofun, rfl⟩
  have hclass : classify c.registry m ⟨"id", op, .value (.ofIds roots)⟩ = .ok .idHierarchy := by
    unfold classify
    rw [show (Leaf.mk "id" op (.value (.ofIds roots))).path = ("id", none) from Leaf.path_of_dotless (by decide)]
    dsimp only
    rw [Registry.resolve?, h.idField]
    simp [hop.2]
  have hkind : (Run.ofExcept (classify c.registry m ⟨"id", op, .value (.ofIds roots)⟩)).Gives tr .idHierarchy tr := by
    rw [hclass]
    rfl
  have hids : (rootIds (c.setting c.context) ⟨"id", op, .value (.ofIds roots)⟩ m).Gives tr roots tr := by
    have hsmall : ∀ r ∈ roots, r < Json.signedLimit := fun r hr => Int.lt_of_le_of_lt (hroots r hr).2 (by decide)
    unfold rootIds
    dsimp only
    rw [names?_ofIds]
    dsimp only [Json.ofIds]
    rw [integers?_map_int hsmall]
    rfl
  have hdomain : (hierarchyDomain (c.setting c.context) build dir roots m none .ids).Gives tr d tr' := by
    unfold hierarchyDomain
    rw [List.isEmpty_eq_false_iff.mpr hne]
    exact Run.gives_bind.mpr ⟨d, tr', hgives, rfl⟩
  unfold reduce
  rw [if_neg hop.1]
  refine Run.gives_bind.mpr ⟨.idHierarchy, tr, hkind, ?_⟩
  unfold reduceKind reduceIdHierarchy
  rw [hdir]
  refine Run.gives_bind.mpr ⟨roots, tr, hids, Run.gives_bind.mpr ⟨d, tr', hdomain, ?_⟩⟩
  unfold Step.domain
  rw [he]
  rfl

theorem finds_hierarchy (h : Stores c db m inUse F row) (hdir : Direction.ofOperator? op = some dir)
    (hroots : ∀ r ∈ roots, Text.Fits r) (hne : roots ≠ [])
    (hdomain : (hierarchy (c.setting c.context) dir roots m none).Delivers (AsksFor m F P)) :
    Machine.Finds c db m F row P [⟨.leaf ⟨"id", op, .value (.ofIds roots)⟩, ⟨m, m.table⟩⟩] := by
  intro q tr
  obtain ⟨d, tr₁, hgives, hd⟩ := hdomain tr
  obtain ⟨e, he, hfinds⟩ := h.finds hd
  obtain ⟨cond, tr₂, hclears, hholds⟩ := hfinds q tr₁
  exact ⟨cond, tr₂, .leaf (fun build _ => h.reduce_hierarchy hdir hroots hne hgives he build) (fun _ _ => rfl) hclears,
    hholds⟩

/-- The query of a domain selects the records for which the condition of its tokens holds. -/
theorem selects (h : Stores c db m inUse F row) {d e : Domain} (he : withActive c.registry c.context m d = .ok e)
    (hne : e.isEmpty = false) (hinward : Domain.distributeNot e = .ok e)
    (hfinds : Machine.Finds c db m F row P (Work.ofDomain ⟨m, m.table⟩ e)) (tr : Trace) :
    ∃ bound q tr', (∀ fuel ≥ bound, (c.query fuel m.name d).Gives tr q tr') ∧
      ∀ n ∈ F.nodes, db.Selects q (row n) ↔ P n := by
  obtain ⟨cond, tr₁, hclears, hholds⟩ := hfinds (.ofTable m.table) tr
  obtain ⟨bound, hon⟩ := hclears.compileOn hinward
  refine ⟨bound + 1, (Query.ofTable m.table).addCondition cond,
    ((Compiler.noticeCompiled m e cond (.ofTable m.table)).run.run tr₁).2, fun fuel hfuel => ?_, fun n hn => ?_⟩
  · obtain ⟨left, rfl⟩ := Nat.exists_eq_add_of_le' hfuel
    have hrun := queryIn_run (h.valid.built.model_eq h.has) he hne (left + bound) tr
    rw [hon (left + bound) (Nat.le_add_left _ _) _ trivial] at hrun
    exact hrun
  · rw [db.selects_ofTable, ← hholds n hn, h.records]
    exact and_iff_right (List.mem_map_of_mem hn)

/-- What is shown of a hierarchy. The caller's own filter stands beside the leaf, and records that are hidden satisfy it
    nowhere. -/
theorem query_hierarchy (h : Stores c db m inUse F row) (hdir : Direction.ofOperator? op = some dir)
    (hroots : ∀ r ∈ roots, Text.Fits r) (hne : roots ≠ [])
    (hdomain : (hierarchy (c.setting c.context) dir roots m none).Delivers (AsksFor m F P)) (tr : Trace) :
    ∃ bound q tr', (∀ fuel ≥ bound,
        (c.query fuel m.name (.ofLeaf "id" op (.value (.ofIds roots)))).Gives tr q tr') ∧
      ∀ n ∈ F.nodes, db.Selects q (row n) ↔ c.context.Shows n ∧ P n := by
  have hfinds := h.finds_hierarchy hdir hroots hne hdomain
  cases hactive : c.context.activeTest with
  | false =>
    have he := withActive_of_off (r := c.registry) hactive m (.ofLeaf "id" op (.value (.ofIds roots)))
    obtain ⟨bound, q, tr', hgives, hselects⟩ := h.selects he rfl rfl hfinds tr
    refine ⟨bound, q, tr', hgives, fun n hn => (hselects n hn).trans (and_iff_right ?_).symm⟩
    intro hon
    rw [hactive] at hon
    cases hon
  | true =>
    have hother : "id" ≠ inUse.name := by
      intro heq
      obtain ⟨hf, htype, -⟩ := h.inUseField
      rw [← heq, h.idField] at hf
      cases hf
      cases htype
    have hunmentioned : ∀ l ∈ (Domain.ofLeaf "id" op (.value (.ofIds roots))).leaves, l.left ≠ inUse.name :=
      List.forall_mem_singleton.mpr hother
    have he : withActive c.registry c.context m (.ofLeaf "id" op (.value (.ofIds roots))) =
        .ok [.and, .leaf (inUseLeaf inUse.name), .leaf ⟨"id", op, .value (.ofIds roots)⟩] :=
      withActive_of_unmentioned hactive h.activeField hunmentioned (Domain.terms?_spell (.leaf _))
        (List.cons_ne_nil _ _) (by simp [Domain.ofLeaf, Domain.always]) (by simp [Domain.ofLeaf, Domain.never])
    obtain ⟨bound, q, tr', hgives, hselects⟩ := h.selects he rfl rfl (h.finds_inUse.and hfinds) tr
    refine ⟨bound, q, tr', hgives, fun n hn => (hselects n hn).trans (and_congr_left fun _ => ?_)⟩
    exact ⟨fun hn _ => hn, fun hn => hn hactive⟩

end Stores

end

/-! ### Paths beside links -/

section
variable {V V' : Type} {c c' : Compiler} {db : Database V} {db' : Database V'} {m m' : Model} {inUse inUse' : Field}
  {F : Forest} {row : Node → Record V} {row' : Node → Record V'} {op : Operator} {dir : Direction} {roots : List Int}

/-- What the queries of a hierarchy select by paths and over links. -/
theorem Stores.queries (h : Stores c db m inUse F row) (hpath : m.parentStore = true)
    (h' : Stores c' db' m' inUse' F row') (hlinks : m'.parentStore = false) (hcontext : c'.context = c.context)
    (hdir : Direction.ofOperator? op = some dir) (hroots : ∀ r ∈ roots, Text.Fits r) (hne : roots ≠ [])
    (hcomplete : Complete (F.Next c.context.Shows dir) roots c.context.maxIterations) (tr tr' : Trace) :
    let d := Domain.ofLeaf "id" op (.value (.ofIds roots))
    ∃ bound q q' t t',
      (∀ fuel ≥ bound, (c.query fuel m.name d).Gives tr q t ∧ (c'.query fuel m'.name d).Gives tr' q' t') ∧
      (∀ n ∈ F.nodes, db.Selects q (row n) ↔ c.context.Shows n ∧ F.Related (fun _ => True) dir roots n) ∧
      ∀ n ∈ F.nodes, db'.Selects q' (row' n) ↔ c.context.Shows n ∧ F.Related c.context.Shows dir roots n := by
  intro d
  have hby_path := hierarchy_by_path (s := c.setting c.context) h.knows hpath dir roots
  have hby_links : (hierarchy (c'.setting c'.context) dir roots m' none).Delivers
      (AsksFor m' F (F.Related c.context.Shows dir roots)) :=
    hcontext ▸ hierarchy_by_links (s := c'.setting c.context) h'.knows hlinks hroots hcomplete
  obtain ⟨bound, q, t, hgives, hselects⟩ := h.query_hierarchy hdir hroots hne hby_path tr
  obtain ⟨bound', q', t', hgives', hselects'⟩ := h'.query_hierarchy hdir hroots hne hby_links tr'
  rw [hcontext] at hselects'
  refine ⟨max bound bound', q, q', t, t', fun fuel hfuel => ⟨?_, ?_⟩, hselects, hselects'⟩
  · exact hgives fuel (Nat.le_trans (Nat.le_max_left _ _) hfuel)
  · exact hgives' fuel (Nat.le_trans (Nat.le_max_right _ _) hfuel)

/-- The same forest in two models of which one stores paths and the other links, in the same context. By paths, a
    hierarchy selects what is shown of the records that are related to the roots; over links, if the walk is complete
    within its cap, what is shown of those that are related to them over records that are shown. These are the same
    records if the hierarchy goes up, or if no record that is shown is below one that is hidden, roots apart. -/
theorem queries_of_hierarchy (h : Stores c db m inUse F row) (hpath : m.parentStore = true)
    (h' : Stores c' db' m' inUse' F row') (hlinks : m'.parentStore = false) (hcontext : c'.context = c.context)
    (hdir : Direction.ofOperator? op = some dir) (hroots : ∀ r ∈ roots, Text.Fits r) (hne : roots ≠ [])
    (hcomplete : Complete (F.Next c.context.Shows dir) roots c.context.maxIterations) (tr tr' : Trace) :
    let d := Domain.ofLeaf "id" op (.value (.ofIds roots))
    ∃ bound q q' t t',
      (∀ fuel ≥ bound, (c.query fuel m.name d).Gives tr q t ∧ (c'.query fuel m'.name d).Gives tr' q' t') ∧
      (∀ n ∈ F.nodes, db.Selects q (row n) ↔ c.context.Shows n ∧ F.Related (fun _ => True) dir roots n) ∧
      (∀ n ∈ F.nodes, db'.Selects q' (row' n) ↔ c.context.Shows n ∧ F.Related c.context.Shows dir roots n) ∧
      ((dir = .descendants → ∀ n k, F.Child n k → c.context.Shows n → c.context.Shows k ∨ k.id ∈ roots) →
        ∀ n ∈ F.nodes, db.Selects q (row n) ↔ db'.Selects q' (row' n)) := by
  intro d
  obtain ⟨bound, q, q', t, t', hgives, hselects, hselects'⟩ :=
    h.queries hpath h' hlinks hcontext hdir hroots hne hcomplete tr tr'
  refine ⟨bound, q, q', t, t', hgives, hselects, hselects', fun hseen n hn => ?_⟩
  rw [hselects n hn, hselects' n hn]
  exact and_congr_right fun hshown => Forest.related_of_seen hseen hshown

end

/-! ### Folders and pages -/

/-- A pattern with a percent sign at its end finds the texts that start with the rest. -/
def likeStart : Datum → Datum → Bool
  | .text s, .text p =>
    match p.toList.reverse with
    | '%' :: rest => rest.reverse.isPrefixOf s.toList
    | _ => s = p
  | a, b => a = b

/-- A record of a forest with its path and its link. -/
def forestRow (n : Node) : Record Datum
  | "id" => some (.number n.id)
  | "parent_id" => n.parent.map .number
  | "parent_path" => some (.text n.path)
  | "active" => some (.bool n.active)
  | _ => none

/-- Every table holds the forest. -/
def forestDatabase (F : Forest) : Database Datum where
  base := { Datum.engine with like := likeStart }
  records _ := F.nodes.map forestRow

theorem readsPaths_forest (F : Forest) : (forestDatabase F).base.ReadsPaths where
  equal_int a b _ _ := by
    show decide (Datum.number a = Datum.number b) = (a == b)
    simp [Bool.beq_eq_decide_eq]
  asText _ := rfl
  unaccent _ _ := rfl
  like s p _ := by
    show likeStart (.text s) (.text (p ++ "%")) = true ↔ _
    simp [likeStart]

/-- The ids in a domain of one leaf. -/
def askedIds : Domain → List Int
  | [.leaf ⟨_, _, .value (.arr items)⟩] => items.filterMap fun
    | .int n => some n
    | _ => none
  | _ => []

theorem askedIds_ofIds (left : String) (op : Operator) (ids : List Int) :
    askedIds (.ofLeaf left op (.value (.ofIds ids))) = ids :=
  List.filterMap_map.trans (List.filterMap_some (l := ids))

/-- A database that answers from the records of a forest. -/
def forestBackend (F : Forest) : Backend where
  search _ _ d options := .ok ((F.nodes.filter fun n =>
    n.parent.any (· ∈ askedIds d) && (!options.activeTest || n.active)).map (·.id))
  references _ _ ids _ := .ok ((F.nodes.filter (·.id ∈ ids)).filterMap (·.parent)).eraseDups
  parentPaths _ _ ids := .ok ((F.nodes.filter (·.id ∈ ids)).map fun n => (n.id, n.path))

theorem knows_forest (F : Forest) (m : Model) : (forestBackend F).Knows m F where
  children _ ids activeTest := by
    refine ⟨_, rfl, fun x => ?_⟩
    simp only [askedIds_ofIds, List.mem_map, List.mem_filter, Bool.and_eq_true, Option.any_eq_true, decide_eq_true_eq,
      Bool.or_eq_true, Bool.not_eq_true', and_assoc]
    constructor
    · rintro ⟨n, hn, ⟨y, hparent, hy⟩, hshown, hid⟩
      exact ⟨n, hn, hid, ⟨y, hy, hparent⟩, fun hon => hshown.resolve_left (by rw [hon]; nofun)⟩
    · rintro ⟨n, hn, hid, ⟨y, hy, hparent⟩, hshown⟩
      refine ⟨n, hn, ⟨y, hparent, hy⟩, ?_, hid⟩
      cases activeTest with
      | false => exact .inl rfl
      | true => exact .inr (hshown rfl)
  parents _ ids := by
    refine ⟨_, rfl, fun x => ?_⟩
    simp [List.mem_eraseDups, List.mem_filterMap, and_assoc]
  paths _ _ ids := by
    refine ⟨_, rfl, fun p => ?_⟩
    simp [and_assoc, eq_comm]

/-- A folder, one in it that is out of use, and one in that. -/
def folders : Forest where
  nodes := [⟨1, none, [1], true⟩, ⟨2, some 1, [1, 2], false⟩, ⟨3, some 2, [1, 2, 3], true⟩]
  fits := by decide
  apart := by decide
  root := by decide
  child := by
    intro n hn x hparent
    simp only [List.mem_cons, List.not_mem_nil, or_false] at hn
    rcases hn with rfl | rfl | rfl <;> cases hparent
    · exact ⟨⟨1, none, [1], true⟩, by decide, rfl, rfl⟩
    · exact ⟨⟨2, some 1, [1, 2], false⟩, by decide, rfl, rfl⟩

/-- Whether a record of a tree is in use. -/
def activeField : Field := { name := "active", type := .boolean }

def treeModel (name : String) : Model :=
  ((Model.ofTable name name).withField (Field.many2one "parent_id" name)).withField activeField

/-- Folders have paths and pages have links. -/
def folderCompiler : Compiler where
  registry :=
    { models := (Keyed.empty.insert "folder" (treeModel "folder").withParentStore).insert "page" (treeModel "page") }
  backend := forestBackend folders
  context := { taskCompiler.context with activeTest := true }

theorem valid_folders : folderCompiler.registry.Valid where
  built := .register (m := treeModel "page") (.register (m := (treeModel "folder").withParentStore) .empty rfl) rfl
  validated := rfl

theorem stores_folders {m : Model} (hm : m = (treeModel "folder").withParentStore ∨ m = treeModel "page") :
    Stores folderCompiler (forestDatabase folders) m activeField folders forestRow where
  valid := valid_folders
  has := by
    rcases hm with rfl | rfl
    · exact ⟨"folder", rfl⟩
    · exact ⟨"page", rfl⟩
  knows := knows_forest folders m
  reads := readsPaths_forest folders
  records := rfl
  idField := by rcases hm with rfl | rfl <;> rfl
  id _ _ := rfl
  pathField hstore := by
    rcases hm with rfl | rfl
    · rfl
    · cases hstore
  path _ _ _ := rfl
  activeField := by rcases hm with rfl | rfl <;> rfl
  inUseField := by rcases hm with rfl | rfl <;> exact ⟨rfl, rfl, rfl⟩
  inUse _ _ := rfl

/-- Below a record that is shown, the walk over links finds one record only. -/
theorem next_folders {y x : Int} (h : folders.Next folderCompiler.context.Shows .descendants y x) : y = 2 ∧ x = 3 := by
  obtain ⟨n, hn, rfl, hparent, hshown⟩ := h
  simp only [folders, List.mem_cons, List.not_mem_nil, or_false] at hn
  rcases hn with rfl | rfl | rfl
  · cases hparent
  · cases hshown rfl
  · cases hparent
    exact ⟨rfl, rfl⟩

theorem complete_folders (roots : List Int) :
    Complete (folders.Next folderCompiler.context.Shows .descendants) roots 10 := by
  rintro x (hroot | ⟨y, hy, hnext⟩)
  · exact .inl hroot
  · obtain ⟨rfl, rfl⟩ := next_folders hnext
    rcases hy with hroot | ⟨y, -, hnext'⟩
    · exact .inr ⟨2, .inl hroot, hnext⟩
    · cases (next_folders hnext').2

/-- Below the folder that is out of use, both find the one in it. -/
theorem queries_of_hierarchy_folders :
    let c := folderCompiler
    let db := forestDatabase folders
    let folder := (treeModel "folder").withParentStore
    let page := treeModel "page"
    let d := Domain.ofLeaf "id" .childOf (.value (.ofIds [2]))
    Stores c db folder activeField folders forestRow ∧ folder.parentStore = true ∧
      Stores c db page activeField folders forestRow ∧ page.parentStore = false ∧
      Direction.ofOperator? .childOf = some .descendants ∧ (∀ r ∈ [2], Text.Fits r) ∧
      Complete (folders.Next c.context.Shows .descendants) [2] c.context.maxIterations ∧
      ∃ bound q q' t t',
        (∀ fuel ≥ bound, (c.query fuel "folder" d).Gives {} q t ∧ (c.query fuel "page" d).Gives {} q' t') ∧
        ∀ n ∈ folders.nodes, db.Selects q (forestRow n) ↔ db.Selects q' (forestRow n) := by
  intro c db folder page d
  have hfolder := stores_folders (.inl rfl)
  have hpage := stores_folders (.inr rfl)
  have hroots : ∀ r ∈ [2], Text.Fits r := by decide
  have hseen : Direction.descendants = .descendants → ∀ n k, folders.Child n k → c.context.Shows n →
      c.context.Shows k ∨ k.id ∈ [2] := by
    rintro - n k ⟨hn, -, hparent⟩ hshown
    obtain ⟨hid, -⟩ := next_folders ⟨n, hn, rfl, hparent, hshown⟩
    exact .inr (List.mem_singleton.mpr hid)
  have hdir : Direction.ofOperator? .childOf = some .descendants := rfl
  obtain ⟨bound, q, q', t, t', hgives, -, -, hagree⟩ := queries_of_hierarchy hfolder rfl hpage rfl rfl hdir hroots nofun
    (complete_folders [2]) {} {}
  exact ⟨hfolder, rfl, hpage, rfl, hdir, hroots, complete_folders [2], bound, q, q', t, t', hgives, hagree hseen⟩

/-- Because of the folder that is out of use, the one in it is found by its path but not over its links. -/
theorem archived_folder_cuts_links :
    let c := folderCompiler
    let db := forestDatabase folders
    let folder := (treeModel "folder").withParentStore
    let page := treeModel "page"
    let d := Domain.ofLeaf "id" .childOf (.value (.ofIds [1]))
    let inner : Node := ⟨3, some 2, [1, 2, 3], true⟩
    Stores c db folder activeField folders forestRow ∧ folder.parentStore = true ∧
      Stores c db page activeField folders forestRow ∧ page.parentStore = false ∧
      Complete (folders.Next c.context.Shows .descendants) [1] c.context.maxIterations ∧ inner ∈ folders.nodes ∧
      ∃ bound q q' t t',
        (∀ fuel ≥ bound, (c.query fuel "folder" d).Gives {} q t ∧ (c.query fuel "page" d).Gives {} q' t') ∧
        db.Selects q (forestRow inner) ∧ ¬db.Selects q' (forestRow inner) := by
  intro c db folder page d inner
  have hfolder := stores_folders (.inl rfl)
  have hpage := stores_folders (.inr rfl)
  have hinner : inner ∈ folders.nodes := by decide
  have hdir : Direction.ofOperator? .childOf = some .descendants := rfl
  have hroots : ∀ r ∈ [1], Text.Fits r := by decide
  obtain ⟨bound, q, q', t, t', hgives, hselects, hselects'⟩ := hfolder.queries rfl hpage rfl rfl hdir hroots nofun
    (complete_folders [1]) {} {}
  have hrelated : folders.Related (fun _ => True) .descendants [1] inner := by
    have houter : ⟨1, none, [1], true⟩ ∈ folders.nodes := by decide
    exact ⟨_, houter, by decide, (Forest.mem_trail_iff hinner houter).mp (by decide)⟩
  have hcut : ¬folders.Related c.context.Shows .descendants [1] inner := by
    rw [Forest.related_iff hinner]
    rintro ⟨r, hr, hreach⟩
    cases List.mem_singleton.mp hr
    rcases hreach.cases_head with heq | ⟨y, hnext, -⟩
    · cases heq
    · cases (next_folders hnext).1
  refine ⟨hfolder, rfl, hpage, rfl, complete_folders [1], hinner, bound, q, q', t, t', hgives, ?_, ?_⟩
  · exact (hselects inner hinner).mpr ⟨fun _ => rfl, hrelated⟩
  · exact fun hselected => hcut ((hselects' inner hinner).mp hselected).2

end Compile
end RecordFilter
