import RecordFilter.Proofs.Compile.Additions
import RecordFilter.Proofs.Compile.Operands
import RecordFilter.Proofs.Compile.ReadColumns
import RecordFilter.Proofs.Compile.Settling

/-! Compiled queries read columns that are there. A leaf is compiled to a comparison of a stored column of its place's
    model, or to a subquery of its own, and the joins go along relations that are stored. The back reference of a
    one2many field is read from the table of the lines too: where it has no column, but paths through the field are
    joined, the query asks for a column that there is not. -/

namespace RecordFilter
open Sql

/-- What is followed from record to record has a column: the links of delegations, and the back references of one2many
    fields. A back reference may do without one if it says so and paths through the field are not joined. -/
structure Registry.StoresReferences (r : Registry) : Prop where
  link {m parent link} : r.Has m → (parent, link) ∈ m.inherits.entries → m.HasColumn link
  inverse {m name f comodel inverse g} : r.Has m → m.field? name = some f → f.type = .one2many → f.store = true →
    r.comodel f = .ok comodel → f.inverseName = some inverse → comodel.field? inverse = some g →
    f.autoJoin = true ∨ g.store = true → comodel.HasColumn inverse

/-! ### Queries -/

namespace Sql.Query

theorem tableOf?_tables (q : Query) (tableAlias : String) : q.tables.tableOf? tableAlias = q.tableOf? tableAlias := rfl

/-- A query on the table of a model that reads columns that are there, and gives all its rows in no order. -/
structure ReadsOn (r : Registry) (m : Model) (q : Query) : Prop where
  table : q.table = m.table
  joins : ∀ j ∈ q.joins, q.tables.OffersJoin r j
  conditions : ∀ c ∈ q.conditions, c.Reads r (q.tables.Offers r)
  window : q.window = {}

namespace ReadsOn
variable {r : Registry} {m : Model} {q : Query}

theorem condition (h : q.ReadsOn r m) : q.condition.Reads r (q.tables.Offers r) :=
  Query.condition_of trivial (fun ha hb => ⟨ha, hb⟩) h.conditions

theorem offers (h : q.ReadsOn r m) (hm : r.Has m) {column : String} (hcolumn : m.HasColumn column) :
    q.tables.Offers r ⟨q.tableAlias, column⟩ := Tables.offers_own hm h.table hcolumn

theorem subselect (h : q.ReadsOn r m) (hm : r.Has m) {column : String} (hcolumn : m.HasColumn column) :
    (q.subselect (.column ⟨q.tableAlias, column⟩)).Reads r := by
  refine ⟨⟨_, rfl, h.offers hm hcolumn⟩, h.joins, h.condition, fun order horder => ?_⟩
  rw [h.window] at horder
  cases horder

theorem select (h : q.ReadsOn r m) (hm : r.Has m) : (q.select []).Reads r := by
  refine ⟨⟨_, rfl, h.offers hm .id⟩, h.joins, h.condition, fun order horder => ?_⟩
  rw [h.window] at horder
  cases horder

/-- In the order of ids, the query reads the column of the id twice. -/
theorem select_inIdOrder (h : q.ReadsOn r m) (hm : r.Has m) : ((Compile.inIdOrder q).select []).Reads r := by
  refine ⟨⟨_, rfl, h.offers hm .id⟩, h.joins, h.condition, fun order horder => ?_⟩
  have hid : qualified q.tableAlias "id" = order := Option.some.inj horder
  exact ⟨⟨q.tableAlias, "id"⟩, hid.symm, h.offers hm .id⟩

theorem ids_inIdOrder (h : q.ReadsOn r m) (hm : r.Has m) : (Compile.inIdOrder q).ids.Reads r := by
  rw [Compile.ids_inIdOrder h.window]
  exact h.subselect hm .id

end ReadsOn
end Sql.Query

namespace Compile

variable {s : Setting} {build : QueryBuilder} {l : Leaf} {p : Place}

/-- Queries for domains that read columns that are there do so too, on the table of their model. -/
def ReadingBuilder (r : Registry) (build : QueryBuilder) : Prop :=
  ∀ ctx model d q, d.Reads r → Builds build ctx model d q → ∃ m, r.model model = .ok m ∧ q.ReadsOn r m

/-- What a compilation relies on. -/
structure Setting.Reading (s : Setting) (build : QueryBuilder) : Prop where
  valid : s.registry.Valid
  references : s.registry.StoresReferences
  hooks : s.registry.HooksRead
  build : ReadingBuilder s.registry build

/-! ### Operands -/

theorem Finds.reads (hs : s.Reading build) {ctx : Context} {model : String} {d : Domain} (hd : d.Reads s.registry)
    {found : Found} (h : Finds build ctx model d found) : found.operand.Reads s.registry := by
  cases h with
  | nothing => trivial
  | rows hq =>
    obtain ⟨m, hm, hq⟩ := hs.build _ _ _ _ hd hq
    exact hq.ids_inIdOrder (Registry.has_of_model hm)

theorem passes_reads (hs : s.Reading build) : Passes s build (Operand.Reads s.registry) where
  value _ := trivial
  found _ hd hf := hf.reads hs hd

/-! ### Steps -/

/-- The column is one of the place's model, under the alias of the place. -/
def Place.Serves (p : Place) (c : Column) : Prop := c.tableAlias = p.tableAlias ∧ p.model.HasColumn c.name

/-- A token whose operand, if it has one, reads columns that are there. -/
def Work.Reads (r : Registry) (w : Work) : Prop := ∀ l, w.token = .leaf l → l.right.Reads r

/-- A condition reads columns of the place, a join goes from one, and operands read columns that are there. -/
def Step.Reads (r : Registry) (p : Place) : Step → Prop
  | .emit c => c.Reads r p.Serves
  | .requeue items => ∀ w ∈ items, w.Reads r
  | .follow join item => p.Serves ⟨join.sourceAlias, join.sourceColumn⟩ ∧ item.Reads r

theorem Work.reads_ofDomain {r : Registry} {d : Domain} (h : d.Reads r) : ∀ w ∈ Work.ofDomain p d, w.Reads r :=
  fun w hw => (Work.operands_ofDomain h w hw).2

theorem leaf_reads {r : Registry} (h : l.right.Reads r) : (Step.leaf l p).Reads r p := by
  intro w hw
  rw [List.mem_singleton.mp hw]
  exact Work.operand_leaf h

theorem followTo_reads {r : Registry} (hl : l.right.Reads r) {link : String} (hlink : p.model.HasColumn link)
    (target : Model) : (Step.followTo l p link target).Reads r p := ⟨⟨rfl, hlink⟩, Work.operand_leaf hl⟩

theorem domain_reads {l' : Leaf} {d : Domain} (hd : d.Reads s.registry) :
    (Step.domain d p).Meets (Step.Reads s.registry p) (Fails s build l' p) :=
  domain_meets d fun _ he => Work.reads_ofDomain (Domain.operands_distributeNot hd he)

theorem hierarchyStep_reads (hs : s.Reading build) (dir : Direction) (ids : List Int) (m : Model)
    (parent : Option String) (target : Target) :
    (hierarchyDomain s build dir ids m parent target >>= (Step.domain · p)).Meets (Step.Reads s.registry p)
      (Fails s build l p) :=
  .bind (hierarchyDomain_meets dir ids m parent target) fun _ hd => domain_reads (hd.operands (passes_reads hs))

/-! ### Leaves of each kind -/

theorem emitLeaf_reads (hcolumn : p.model.HasColumn l.left) (hl : l.right.Reads s.registry) :
    (emitLeaf s l p).Meets (Step.Reads s.registry p) (Fails s build l p) := by
  unfold emitLeaf
  refine .bind (.ofExcept (P := (plainCondition l p s.context = .ok ·)) (fun _ h => h) fun _ h => .plain h)
    fun c hc => ?_
  have hreads : c.Reads s.registry p.Serves := plainCondition_reads ⟨rfl, hcolumn⟩ hl hc
  have emit : (pure (Step.emit c) : Run Step).Meets (Step.Reads s.registry p) (Fails s build l p) := .pure hreads
  cases leafNotice? l with
  | none => exact emit
  | some notice => exact .bind (.log _ _) fun _ _ => emit

theorem reducePath_reads (hs : s.Reading build) (hl : l.right.Reads s.registry) (f : Field) (comodel : Model)
    (rest : String) :
    (reducePath s build l l.path.1 rest p f comodel).Meets (Step.Reads s.registry p) (Fails s build l p) := by
  have hd : (Domain.ofLeaf rest l.op l.right).Reads s.registry := Domain.operands_ofLeaf hl
  have found : ∀ ctx, (findWith build ctx comodel.name (.ofLeaf rest l.op l.right) >>= fun x => pure x.operand :
      Run Operand).Meets (·.Reads s.registry) (Fails s build l p) := fun ctx =>
    .bind (findWith_meets ctx _ _) fun _ hf => .pure (hf.reads hs hd)
  refine .bind (P := (·.Reads s.registry)) ?_ fun operand h => .pure (leaf_reads h)
  unfold reducePath.target
  split
  · exact found _
  · refine .bind (P := fun _ => True) (.ofExcept (fun _ _ => trivial) fun _ h => .inverseName h) fun name _ => ?_
    split
    · exact .bind (fails_admits.lineIds comodel _) fun ids _ => .pure trivial
    · exact found _
  · exact found _

theorem reduceComputed_reads (hs : s.Reading build) (hl : l.right.Reads s.registry) (f : Field) :
    (reduceComputed s build l p f).Meets (Step.Reads s.registry p) (Fails s build l p) := by
  have ask : ∀ {name hook op operand}, s.registry.hook? name = some hook → operand.Reads s.registry →
      (Run.callHook name hook p.model op operand >>= (Step.domain · p)).Meets (Step.Reads s.registry p)
        (Fails s build l p) := fun hhook hop =>
    .bind (.callHook (fun _ h => h) fun _ h => .answer (.hook hhook h)) fun _ hd =>
      domain_reads (hs.hooks _ _ hhook _ _ _ _ hop hd)
  unfold reduceComputed
  split
  · exact .bind (.log _ _) fun _ _ => .pure trivial
  · split
    · exact .bind (.log _ _) fun _ _ => .pure trivial
    · rename_i name hook hhook
      split
      · exact ask hhook hl
      · refine .bind (.ofExcept (P := fun _ => True) (fun _ _ => trivial) fun _ h => .comodel h) fun comodel _ => ?_
        exact .bind (findWith_meets _ _ _) fun found hf => ask hhook (hf.reads hs (Domain.operands_ofLeaf hl))

theorem reduceAttachment_reads (f : Field) :
    (reduceAttachment s l p f).Meets (Step.Reads s.registry p) (Fails s build l p) := by
  unfold reduceAttachment
  dsimp only
  split
  · exact .pure (leaf_reads trivial)
  · exact .pure (leaf_reads trivial)
  · exact .bind (.log _ _) fun _ _ => .pure trivial

theorem reduceMany2one_reads (hs : s.Reading build) (hl : l.right.Reads s.registry) (hcolumn : p.model.HasColumn l.left)
    (head : String) (comodel : Model) :
    (reduceMany2one s build l head p comodel).Meets (Step.Reads s.registry p) (Fails s build l p) := by
  unfold reduceMany2one
  split
  · refine .bind (fails_admits.rootIds comodel) fun ids _ => ?_
    split
    · exact hierarchyStep_reads hs _ _ _ _ _
    · exact hierarchyStep_reads hs _ _ _ _ _
  · split
    · split
      · refine .bind (P := fun leaf => leaf.right.Reads s.registry) ?_ fun leaf hleaf => .pure (leaf_reads hleaf)
        exact .bind (fails_admits.nameSearch comodel _ _ _) fun ids _ => .pure trivial
      · exact emitLeaf_reads hcolumn hl
    · exact emitLeaf_reads hcolumn hl

theorem reduceIdHierarchy_reads (hs : s.Reading build) :
    (reduceIdHierarchy s build l p).Meets (Step.Reads s.registry p) (Fails s build l p) := by
  unfold reduceIdHierarchy
  split
  · exact .bind (fails_admits.rootIds _) fun ids _ => hierarchyStep_reads hs _ _ _ _ _
  · exact .fail (.leaf _)

theorem inverseField_eq_ok {m comodel : Model} {f inverse : Field} (h : inverseField m f comodel = .ok inverse) :
    ∃ g, f.inverseName = some inverse.name ∧ comodel.field? inverse.name = some g ∧ g.store = inverse.store := by
  unfold inverseField at h
  split at h
  · cases h
  · rename_i hname
    split at h <;> cases h
    rename_i g hg
    exact ⟨g, inverseName_eq_ok hname, hg, rfl⟩

theorem reduceOne2many_reads (hs : s.Reading build) (hl : l.right.Reads s.registry) (hm : s.registry.Has p.model)
    {f : Field} {comodel : Model} (hk : classify s.registry p.model l = .ok (.one2many f comodel)) :
    (reduceOne2many s build l p f comodel).Meets (Step.Reads s.registry p) (Fails s build l p) := by
  unfold reduceOne2many
  refine .bind (.ofExcept (P := (inverseField p.model f comodel = .ok ·)) (fun _ h => h) fun _ h => .inverseField h)
    fun inverse hinverse => ?_
  -- The rewrites that name the column of the back reference are those where it is stored.
  have column : inverse.store = true → s.registry.HasColumn comodel.table inverse.name := fun hstore => by
    obtain ⟨g, hname, hg, hgstore⟩ := inverseField_eq_ok hinverse
    cases classify_ok hk with
    | one2many hf htype hcomodel =>
      exact ⟨comodel, Registry.has_of_comodel hcomodel, rfl, hs.references.inverse hm hf htype (classify_hasColumn hk)
        hcomodel hname hg (.inr (hgstore.trans hstore))⟩
  have hid : s.registry.HasColumn comodel.table "id" := by
    cases classify_ok hk with
    | one2many _ _ hcomodel => exact ⟨comodel, Registry.has_of_comodel hcomodel, rfl, .id⟩
  dsimp only
  split
  · unfold one2manyHierarchy
    refine .bind (fails_admits.rootIds comodel) fun ids _ => ?_
    split
    · exact hierarchyStep_reads hs _ _ _ _ _
    · split
      · exact hierarchyStep_reads hs _ _ _ _ _
      · refine .bind (hierarchyDomain_meets _ _ _ _ _) fun d _ => .bind (fails_admits.lineIds comodel d) fun lines _ => ?_
        exact domain_reads (Domain.operands_ofLeaf trivial)
  · split
    · refine .bind (P := (·.Reads s.registry)) ?_ fun owners ho => .pure (leaf_reads ho)
      unfold allOwners
      split
      · rename_i hstore
        exact .pure (.inl (column hstore))
      · exact .bind (fails_admits.lineIds comodel _) fun lines _ => .bind (fails_admits.references comodel _ _) fun ids _ =>
          .pure trivial
    · refine .bind (fails_admits.relatedOf comodel) fun related hr => ?_
      split
      · exact .pure trivial
      · rename_i hstore
        exact .pure (leaf_reads ⟨column hstore, hid, trivial⟩)
      · rename_i sub hstore
        exact .pure (leaf_reads ⟨column hstore, hid, hr.passes hl rfl⟩)
      · exact .bind (fails_admits.references comodel _ _) fun ids _ => .pure (leaf_reads trivial)
      · exact .fail (.unstoredInverse _ _ _)

theorem linkedTo_reads {r : Registry} {name : String} {relation : Relation} {positive : Bool} {related : Related}
    (hcolumn1 : r.RelatesBy relation.table relation.column1) (hcolumn2 : r.RelatesBy relation.table relation.column2)
    (h : ∀ sub, related = .rows sub → sub.Reads r) : (linkedTo p name relation positive related).Reads r p.Serves := by
  have hid : p.Serves ⟨p.tableAlias, "id"⟩ := ⟨rfl, .id⟩
  unfold linkedTo
  split
  · trivial
  · exact ⟨hid, hcolumn1, hcolumn2, trivial⟩
  · rename_i sub
    exact ⟨hid, hcolumn1, hcolumn2, h sub rfl⟩

theorem reduceMany2many_reads (hs : s.Reading build) (hl : l.right.Reads s.registry) (hm : s.registry.Has p.model)
    {f : Field} {comodel : Model} (hk : classify s.registry p.model l = .ok (.many2many f comodel)) :
    (reduceMany2many s build l p f comodel).Meets (Step.Reads s.registry p) (Fails s build l p) := by
  unfold reduceMany2many
  split
  · rename_i hrelation
    exact .fail (.relation hk hrelation)
  · rename_i relation hrelation
    have columns : ∀ column, column = relation.column1 ∨ column = relation.column2 →
        s.registry.RelatesBy relation.table column := fun column hcolumn => by
      cases classify_ok hk with
      | many2many hf htype hstore _ => exact ⟨p.model, _, f, relation, hm, hf, htype, hstore, hrelation, rfl, hcolumn⟩
    have hcolumn1 := columns _ (.inl rfl)
    dsimp only
    split
    · unfold many2manyHierarchy
      refine .bind (fails_admits.rootIds comodel) fun ids _ => .bind (hierarchyDomain_meets _ _ _ _ _) fun d hd =>
        .bind (findWith_meets _ _ _) fun found hf => ?_
      have hfound := hf.reads hs (hd.toOwn.operands (passes_reads hs).value)
      split
      · exact .pure (leaf_reads hfound)
      · refine .pure (linkedTo_reads hcolumn1 (columns _ (.inr rfl)) fun sub hsub => ?_)
        cases hf with
        | nothing => cases hsub
        | rows =>
          cases hsub
          exact hfound
    · split
      · exact .pure (leaf_reads (.inr hcolumn1))
      · exact .bind (fails_admits.relatedOf comodel) fun related hr =>
          .pure (linkedTo_reads hcolumn1 (columns _ (.inr rfl)) fun sub hsub =>
            hr.passes (P := Operand.Reads s.registry) hl hsub)

theorem reduceKind_reads (hs : s.Reading build) (hl : l.right.Reads s.registry) (hm : s.registry.Has p.model)
    {kind : FieldKind} (hk : classify s.registry p.model l = .ok kind) :
    (reduceKind s build l p kind).Meets (Step.Reads s.registry p) (Fails s build l p) := by
  have hcolumn := classify_hasColumn hk
  cases kind with
  | inherited parent link =>
    cases classify_ok hk with
    | inherited hresolve =>
      obtain ⟨parentName, hlink, -⟩ := Registry.resolve?_inherited hresolve
      exact .pure (followTo_reads hl (hs.references.link hm hlink) parent)
  | idHierarchy => exact reduceIdHierarchy_reads hs
  | joinedPath comodel rest => exact .pure (followTo_reads (l := { l with left := rest }) hl hcolumn comodel)
  | linesPath f comodel rest =>
    refine .bind (.ofExcept (P := (inverseName p.model f = .ok ·)) (fun _ h => h) fun _ h => .inverseName h)
      fun inverse hinverse => .bind (build_meets _ _ _) fun q hq => .pure (leaf_reads ?_)
    cases classify_ok hk with
    | linesPath hf htype hcomodel =>
      have hcomodelHas := Registry.has_of_comodel hcomodel
      obtain ⟨m, hmodel, hq⟩ := hs.build _ _ _ _ (Domain.operands_ofLeaf hl) hq
      obtain rfl : comodel = m := Except.ok.inj ((hs.valid.built.model_eq hcomodelHas).symm.trans hmodel)
      obtain ⟨g, hg⟩ := hs.valid.inverse_eq_some hm hf htype hcomodel (inverseName_eq_ok hinverse)
      exact hq.subselect hcomodelHas (hs.references.inverse hm hf htype hcolumn.1 hcomodel (inverseName_eq_ok hinverse) hg
        (.inl hcolumn.2))
  | path f comodel rest => exact reducePath_reads hs hl f comodel rest
  | computed f => exact reduceComputed_reads hs hl f
  | one2many f comodel => exact reduceOne2many_reads hs hl hm hk
  | many2many f comodel => exact reduceMany2many_reads hs hl hm hk
  | many2one comodel => exact reduceMany2one_reads hs hl hcolumn _ comodel
  | attachment f => exact reduceAttachment_reads f
  | datetime =>
    rw [reduceKind]
    split
    · rename_i l' hl'
      obtain ⟨date, time, -, -, rfl⟩ := widenDate?_eq_some hl'
      exact .pure (leaf_reads trivial)
    · exact emitLeaf_reads hcolumn hl
  | translatable =>
    rw [reduceKind]
    split
    · refine .bind (.ofExcept (P := (translatedCondition l p s.context = .ok ·)) (fun _ h => h) fun _ h => .translated h)
        fun c hc => ?_
      have hreads : c.Reads s.registry p.Serves := translatedCondition_reads ⟨rfl, hcolumn⟩ hc
      exact .pure hreads
    · exact emitLeaf_reads hcolumn hl
  | plain => exact emitLeaf_reads hcolumn hl

/-- A leaf becomes a condition on columns of its place, a join from one, or leaves whose operands read columns that are
    there. -/
theorem reduce_reads (hs : s.Reading build) (hm : s.registry.Has p.model) (hl : l.right.Reads s.registry) :
    (reduce s build l p).Meets (Step.Reads s.registry p) (Fails s build l p) := by
  unfold reduce
  split
  · split
    · exact .pure trivial
    · exact .pure (leaf_reads hl)
  · exact .bind (.ofExcept (P := (classify s.registry p.model l = .ok ·)) (fun _ h => h) fun _ h => .classify h)
      fun kind hk => reduceKind_reads hs hl hm hk

/-! ### Machines -/

/-- The column is one of a place that the compilation got to. -/
def Served (r : Registry) (m : Model) (tableAlias : String) (q : Query) (c : Column) : Prop :=
  ∃ p, Reached r m tableAlias q p ∧ p.Serves c

/-- Both columns of the join are. -/
def JoinServed (r : Registry) (m : Model) (tableAlias : String) (q : Query) (j : Join) : Prop :=
  Served r m tableAlias q ⟨j.sourceAlias, j.sourceColumn⟩ ∧ Served r m tableAlias q ⟨j.tableAlias, j.targetColumn⟩

section
variable {m : Model} {tableAlias : String} {q : Query} {c : Column} {j : Join}

theorem Served.addJoin (h : Served s.registry m tableAlias q c) (j : Join) :
    Served s.registry m tableAlias (q.addJoin j) c := by
  obtain ⟨p, hp, hc⟩ := h
  exact ⟨p, hp.addJoin j, hc⟩

theorem JoinServed.addJoin (h : JoinServed s.registry m tableAlias q j) (j' : Join) :
    JoinServed s.registry m tableAlias (q.addJoin j') j := ⟨Served.addJoin h.1 j', Served.addJoin h.2 j'⟩

/-- The alias of a place stands for the table of its model, unless another table's is spelled like it. -/
theorem Reached.stands (htable : q.table = m.table) (hjoins : JoinsAlong s.registry m q.tableAlias q)
    (hp : Reached s.registry m q.tableAlias q p) (honce : SpeltOnce s.registry m q.tableAlias p.tableAlias) :
    q.tableOf? p.tableAlias = some p.model.table := by
  unfold Query.tableOf?
  obtain ⟨links, hleads, hspelt⟩ := hp.leads
  by_cases hown : p.tableAlias = q.tableAlias
  · rw [if_pos hown]
    have hsame : m.table = p.model.table := honce (.here m) hleads hown.symm hspelt.symm
    exact congrArg some (htable.trans hsame)
  · rw [if_neg hown]
    cases hp with
    | start => exact absurd rfl hown
    | @along links' mid link target hmid ht hjoin =>
      -- The first join with the alias is made for a chain that is spelled alike.
      obtain ⟨j, hj⟩ : ∃ j, q.joins.find? (·.tableAlias == aliasAlong q.tableAlias (links' ++ [link])) = some j :=
        Option.isSome_iff_exists.mp (List.find?_isSome.mpr (List.any_eq_true.mp hjoin))
      have hname : j.tableAlias = aliasAlong q.tableAlias (links' ++ [link]) := by simpa using List.find?_some hj
      obtain ⟨links'', mid', link', target', hleads', ht', rfl⟩ := hjoins j (List.mem_of_find?_eq_some hj)
      rw [joinAlong_tableAlias] at hname
      have hsame : target'.table = target.table := honce (hleads'.snoc ht') (hmid.snoc ht) hname rfl
      rw [hj, ← hsame]
      rfl

/-- A column of a place that the compilation got to is on offer. -/
theorem Served.offers (hm : s.registry.Has m) (htable : q.table = m.table)
    (hjoins : JoinsAlong s.registry m q.tableAlias q) (h : Served s.registry m q.tableAlias q c) :
    q.tables.Offers s.registry c := by
  obtain ⟨p, hp, halias, hcolumn⟩ := h
  obtain ⟨links, hleads, hspelt⟩ := hp.leads
  refine ⟨m, links, p.model, hm, htable.symm, hleads, halias.trans hspelt, hcolumn, fun honce => ?_⟩
  rw [halias] at honce ⊢
  rw [Query.tableOf?_tables]
  exact hp.stands htable hjoins honce

end

namespace Machine

/-- All that waits reads columns that are there, and the joins that were made compare such columns. -/
structure ReadsOn (r : Registry) (m : Model) (tableAlias : String) (old : List Join) (machine : Machine) : Prop where
  chained : machine.Chained r m tableAlias
  work : ∀ w ∈ machine.work, w.Reads r
  results : ∀ c ∈ machine.results, c.Reads r (Served r m tableAlias machine.query)
  joins : ∀ j ∈ machine.query.joins, j ∈ old ∨ JoinServed r m tableAlias machine.query j

section
variable {m : Model} {tableAlias : String} {old : List Join} {q : Query} {rest : List Work} {results : List Cond}

theorem take_reads (hp : Reached s.registry m tableAlias q p)
    (h : ReadsOn s.registry m tableAlias old ⟨rest, results, q⟩) {step : Step} (hnear : step.Near s.registry p)
    (hreads : step.Reads s.registry p) : (take q results rest step).ReadsOn s.registry m tableAlias old := by
  have hchained : (take q results rest step).Chained s.registry m tableAlias :=
    take_chained hp h.chained.work h.chained.joins hnear
  cases step with
  | emit c =>
    have hc : c.Reads s.registry (Served s.registry m tableAlias q) := c.reads_mono (fun _ hc => ⟨p, hp, hc⟩) hreads
    exact ⟨hchained, h.work, List.forall_mem_cons.mpr ⟨hc, h.results⟩, h.joins⟩
  | requeue items =>
    refine ⟨hchained, fun w hw => ?_, h.results, h.joins⟩
    rcases List.mem_append.mp hw with hw | hw
    · exact hreads w (List.mem_reverse.mp hw)
    · exact h.work w hw
  | follow join item =>
    obtain ⟨link, target, -, hjoin, hplace⟩ := hnear
    have htarget : (item.place).Serves ⟨join.tableAlias, join.targetColumn⟩ := by
      rw [hplace, hjoin]
      exact ⟨rfl, .id⟩
    refine ⟨hchained, List.forall_mem_cons.mpr ⟨hreads.2, h.work⟩, fun c hc => ?_, fun j hj => ?_⟩
    · exact c.reads_mono (fun _ hc => hc.addJoin join) (h.results c hc)
    · rcases mem_addJoin hj with hj | rfl
      · exact (h.joins j hj).imp_right (·.addJoin join)
      · exact .inr ⟨⟨p, hp.addJoin _, hreads.1⟩, item.place, hchained.work item List.mem_cons_self, htarget⟩

theorem step_reads (hs : s.Reading build) (hm : s.registry.Has m) {item : Work}
    (h : ReadsOn s.registry m tableAlias old ⟨item :: rest, results, q⟩) {t t' : Trace} {next : Machine}
    (hstep : (step s build item rest results q).Gives t next t') : next.ReadsOn s.registry m tableAlias old := by
  have hchained := step_chained h.chained hstep
  obtain ⟨hitem, hrest⟩ := List.forall_mem_cons.mp h.work
  have hresults := h.results
  unfold step at hstep
  split at hstep
  · cases hstep
    obtain ⟨ha, hb, hresults⟩ := List.forall_mem_cons.mp hresults |>.imp_right List.forall_mem_cons.mp
    exact ⟨hchained, hrest, List.forall_mem_cons.mpr ⟨⟨ha, hb⟩, hresults⟩, h.joins⟩
  · cases hstep
    obtain ⟨ha, hb, hresults⟩ := List.forall_mem_cons.mp hresults |>.imp_right List.forall_mem_cons.mp
    exact ⟨hchained, hrest, List.forall_mem_cons.mpr ⟨⟨ha, hb⟩, hresults⟩, h.joins⟩
  · cases hstep
    obtain ⟨ha, hresults⟩ := List.forall_mem_cons.mp hresults
    exact ⟨hchained, hrest, List.forall_mem_cons.mpr ⟨ha, hresults⟩, h.joins⟩
  · cases hstep
    exact ⟨hchained, hrest, List.forall_mem_cons.mpr ⟨trivial, hresults⟩, h.joins⟩
  · cases hstep
    exact ⟨hchained, hrest, List.forall_mem_cons.mpr ⟨trivial, hresults⟩, h.joins⟩
  · rename_i l htoken
    obtain ⟨next', t₁, hreduce, hpure⟩ := Run.gives_bind.mp hstep
    cases hpure
    have hp := h.chained.work item List.mem_cons_self
    obtain ⟨links, hleads, -⟩ := hp.leads
    have hplaces : ∀ w ∈ rest, Reached s.registry m tableAlias q w.place := fun w hw =>
      h.chained.work w (List.mem_cons_of_mem _ hw)
    refine take_reads hp ⟨⟨hplaces, h.chained.joins⟩, hrest, hresults, h.joins⟩ (reduce_meets.gives hreduce).near ?_
    exact (reduce_reads hs (hleads.has hm) (hitem l htoken)).gives hreduce
  · cases hstep

/-- What one token keeps, a compilation keeps. -/
theorem Reaches.readsOn (hs : s.Reading build) (hm : s.registry.Has m) {machine next : Machine}
    (hreach : Reaches s build machine next) (h : machine.ReadsOn s.registry m tableAlias old) :
    next.ReadsOn s.registry m tableAlias old := by
  induction hreach with
  | refl machine => exact h
  | step hstep _ ih => exact ih (step_reads hs hm h hstep)

end
end Machine

/-! ### Compilations -/

/-- Where a domain is compiled into a query on the model's table with joins along chains of relations, the condition and
    the joins that come to it are about columns that the query offers. -/
theorem compileOn_reads (hs : s.Reading build) {m : Model} (hm : s.registry.Has m) {d : Domain} (hd : d.Reads s.registry)
    {q q' : Query} (htable : q.table = m.table) (hjoins : JoinsAlong s.registry m q.tableAlias q) {fuel : Nat}
    {t t' : Trace} {c : Cond}
    (h : (Compiler.compileOn s build fuel ⟨m, q.tableAlias⟩ d q).run t = ((.ok c, q'), t')) :
    c.Reads s.registry (q'.tables.Offers s.registry) ∧
      ∀ j ∈ q'.joins, j ∈ q.joins ∨ q'.tables.OffersJoin s.registry j := by
  have hextends := compileOn_extends h
  unfold Compiler.compileOn at h
  split at h
  · cases h
  · rename_i e he
    have hstart : (Machine.start ⟨m, q.tableAlias⟩ e q).ReadsOn s.registry m q.tableAlias q.joins := by
      refine ⟨⟨fun w hw => ?_, hjoins⟩, fun w hw => ?_, nofun, fun j hj => .inl hj⟩
      · obtain ⟨token, -, rfl⟩ := List.mem_map.mp (List.mem_reverse.mp hw)
        exact .start
      · exact Work.reads_ofDomain (Domain.operands_distributeNot hd he) w (List.mem_reverse.mp hw)
    have hend := (Machine.reaches_of_run h).readsOn hs hm hstart
    have halias : q'.tableAlias = q.tableAlias := hextends.tableAlias
    have htable' : q'.table = m.table := hextends.table.trans htable
    have hjoins' : JoinsAlong s.registry m q'.tableAlias q' := halias ▸ hend.chained.joins
    have offers : ∀ c, Served s.registry m q.tableAlias q' c → q'.tables.Offers s.registry c := fun c hc =>
      Served.offers hm htable' hjoins' (halias ▸ hc)
    exact ⟨c.reads_mono offers (hend.results c List.mem_cons_self),
      fun j hj => (hend.joins j hj).imp_right fun h => ⟨offers _ h.1, offers _ h.2⟩⟩

theorem queryIn_reads (c : Compiler) (hr : c.registry.Valid) (hreferences : c.registry.StoresReferences)
    (hhooks : c.registry.HooksRead) (fuel : Nat) : ReadingBuilder c.registry (c.queryIn fuel) := by
  induction fuel with
  | zero =>
    rintro ctx model d q - ⟨t, t', h⟩
    cases h
  | succ fuel ih =>
    rintro ctx model d q hd ⟨t, t', h⟩
    obtain ⟨m, e, hm, he, ⟨-, rfl⟩ | ⟨-, cond, q', tr', hon, rfl⟩⟩ := queryIn_gives h
    · exact ⟨m, hm, rfl, nofun, nofun, rfl⟩
    · have hextends := compileOn_extends hon
      have hnone : ∀ j, j ∉ (Query.ofTable m.table).joins := fun _ => List.not_mem_nil
      obtain ⟨hcond, hjoins⟩ := compileOn_reads (s := c.setting ctx) ⟨hr, hreferences, hhooks, ih⟩
        (Registry.has_of_model hm) (operands_withActive (fun _ => trivial) hd he) rfl (fun j hj => absurd hj (hnone j)) hon
      refine ⟨m, hm, hextends.table, fun j hj => (hjoins j hj).resolve_left (hnone j), fun c' hc' => ?_, hextends.window⟩
      have hconditions : (q'.addCondition cond).conditions = [cond] := by
        rw [Query.addCondition, hextends.conditions]
        rfl
      rw [hconditions] at hc'
      exact List.mem_singleton.mp hc' ▸ hcond

/-! ### Requests -/

/-- Over an accepted registry that stores its references, with hooks that bring in no columns of their own, every column
    in the SQL for a domain without subqueries is there. So it is in the condition and the joins that a compilation adds
    to a query on the model's table, in the whole query that is built for the domain, found or explained, and in the
    subqueries of each. -/
theorem compile_reads_columns (c : Compiler) (hr : c.registry.Valid) (hreferences : c.registry.StoresReferences)
    (hhooks : c.registry.HooksRead) (fuel : Nat) (model : String) {d : Domain}
    (hd : ∀ l ∈ d.leaves, ∃ v, l.right = .value v) :
    (∀ m q t q' t', c.registry.model model = .ok m → q.table = m.table → JoinsAlong c.registry m q.tableAlias q →
      (c.compile fuel model d q).run t = ((.ok (), q'), t') →
        ∃ joins cond, q.Appended q' joins cond ∧ cond.Reads c.registry (q'.tables.Offers c.registry) ∧
          ∀ j ∈ q'.joins, j ∈ q.joins ∨ q'.tables.OffersJoin c.registry j) ∧
      (∀ t q t', (c.query fuel model d).Gives t q t' → (q.select []).Reads c.registry) ∧
      (∀ t q t', (c.search fuel model d).Gives t (.rows q) t' →
        (q.select []).Reads c.registry ∧ q.ids.Reads c.registry) ∧
      ∀ t x t', (c.explain fuel model d).Gives t x t' →
        ∃ q : Query, x.select = (q.select []).fragment ∧ x.joins = q.joins ∧ (q.select []).Reads c.registry := by
  have hreads : d.Reads c.registry := fun l hl => by
    obtain ⟨v, hv⟩ := hd l hl
    rw [hv]
    trivial
  have hbuild := queryIn_reads c hr hreferences hhooks fuel
  have query : ∀ {t q t'}, (c.query fuel model d).Gives t q t' → ∃ m, c.registry.Has m ∧ q.ReadsOn c.registry m :=
    fun {t q t'} h => by
      obtain ⟨m, hm, hq⟩ := hbuild c.context model d q hreads ⟨t, t', h⟩
      exact ⟨m, Registry.has_of_model hm, hq⟩
  refine ⟨fun m q t q' t' hm htable hjoins h => ?_, fun t q t' h => ?_, fun t q t' h => ?_, fun t x t' h => ?_⟩
  · obtain ⟨m', cond, q₁, t₁, hm', hon, rfl, -⟩ := compile_gives h
    cases hm.symm.trans hm'
    obtain ⟨hcond, hadded⟩ := compileOn_reads (s := c.setting c.context) ⟨hr, hreferences, hhooks, hbuild⟩
      (Registry.has_of_model hm) hreads htable hjoins hon
    obtain ⟨_, joins, t₂, hadds, -, -⟩ :=
      compileOn_adds (c.setting c.context) (c.queryIn fuel) fuel ⟨m, q.tableAlias⟩ d t
    cases (hadds q).symm.trans hon
    exact ⟨joins, cond, q.appended joins cond, hcond, hadded⟩
  · obtain ⟨m, hm, hq⟩ := query h
    exact hq.select hm
  · cases (findWith_meets (s := c.setting c.context) (l := ⟨"", .eq, .value .null⟩) (p := ⟨.ofTable "" "", ""⟩)
      c.context model d).gives h with
    | rows hq =>
      obtain ⟨t, t', hq⟩ := hq
      obtain ⟨m, hm, hq⟩ := query hq
      exact ⟨hq.select_inIdOrder hm, hq.ids_inIdOrder hm⟩
  · obtain ⟨m, t₁, -, h⟩ := Run.gives_bind.mp h
    obtain ⟨q, t₂, hq, h⟩ := Run.gives_bind.mp h
    cases h
    obtain ⟨m, hm, hq⟩ := query hq
    exact ⟨q, rfl, rfl, hq.select hm⟩

/-- An invoice has lines, which are read in place. -/
def invoiceModel : Model :=
  (Model.ofTable "invoice" "invoice").withField { Field.one2many "lines" "line" "invoice_id" with autoJoin := true }

/-- A line of an invoice, with or without a column for the invoice. -/
def invoiceLine (stored : Bool) : Model :=
  ((Model.ofTable "line" "line").withField { name := "label", type := .char }).withField
    { Field.many2one "invoice_id" "invoice" with store := stored }

/-- A compiler for invoices, without a database. -/
def invoiceCompiler (stored : Bool) : Compiler where
  registry := { models := (Keyed.empty.insert "invoice" invoiceModel).insert "line" (invoiceLine stored) }
  context := taskCompiler.context

theorem valid_invoices (stored : Bool) : (invoiceCompiler stored).registry.Valid := by
  cases stored
  · exact ⟨.register (m := invoiceLine false) (.register (m := invoiceModel) .empty rfl) rfl, rfl⟩
  · exact ⟨.register (m := invoiceLine true) (.register (m := invoiceModel) .empty rfl) rfl, rfl⟩

theorem hooksRead_invoices (stored : Bool) : (invoiceCompiler stored).registry.HooksRead := by
  intro name hook h
  cases h

theorem has_invoices {stored : Bool} {m : Model} (h : (invoiceCompiler stored).registry.Has m) :
    m = invoiceModel ∨ m = invoiceLine stored := by
  obtain ⟨name, hname⟩ := h
  have hmem : (name, m) ∈ [("invoice", invoiceModel), ("line", invoiceLine stored)] := Registry.mem_of_lookup hname
  simp only [List.mem_cons, List.not_mem_nil, or_false, Prod.mk.injEq] at hmem
  exact hmem.imp And.right And.right

theorem storesReferences_invoices : (invoiceCompiler true).registry.StoresReferences where
  link hm hmem := by
    rcases has_invoices hm with rfl | rfl <;> cases hmem
  inverse {m name f comodel inverse g} hm hf htype _ hcomodel hinverse _ _ := by
    rcases has_invoices hm with rfl | rfl
    · have hmem : (name, f) ∈ [("id", { name := "id", type := .integer }),
          ("lines", { Field.one2many "lines" "line" "invoice_id" with autoJoin := true })] := Registry.mem_of_lookup hf
      simp only [List.mem_cons, List.not_mem_nil, or_false, Prod.mk.injEq] at hmem
      rcases hmem with ⟨-, rfl⟩ | ⟨-, rfl⟩
      · cases htype
      · cases hcomodel
        cases hinverse
        exact .field (f := Field.many2one "invoice_id" "invoice") rfl ⟨rfl, nofun, nofun⟩
    · have hmem : (name, f) ∈ [("id", { name := "id", type := .integer }),
          ("invoice_id", Field.many2one "invoice_id" "invoice"), ("label", { name := "label", type := .char })] :=
        Registry.mem_of_lookup hf
      simp only [List.mem_cons, List.not_mem_nil, or_false, Prod.mk.injEq] at hmem
      rcases hmem with ⟨-, rfl⟩ | ⟨-, rfl⟩ | ⟨-, rfl⟩ <;> cases htype

/-- The invoices with a line that is labelled x. -/
def labelledDomain : Domain := [.leaf ⟨"lines.label", .eq, .value (.str "x")⟩]

/-- The SQL for them, which goes through the column of the invoice. -/
def labelledSql : String :=
  "SELECT \"invoice\".\"id\" FROM \"invoice\" WHERE (\"invoice\".\"id\" IN " ++
    "(SELECT \"line\".\"invoice_id\" FROM \"line\" WHERE (\"line\".\"label\" = %s)))"

theorem labelled_gives (stored : Bool) :
    ∃ q t, ((invoiceCompiler stored).query 9 "invoice" labelledDomain).Gives {} q t ∧
      (q.select []).fragment.sql = labelledSql := by
  have hok : ((((invoiceCompiler stored).query 9 "invoice" labelledDomain).run {}).1.map fun q =>
      (q.select []).fragment.sql).toOption = some labelledSql := by
    cases stored <;> decide +kernel
  rcases h : ((invoiceCompiler stored).query 9 "invoice" labelledDomain).run {} with ⟨stop | q, t⟩ <;> rw [h] at hok
  · cases hok
  · exact ⟨q, t, h, Option.some.inj hok⟩

theorem compile_reads_columns_invoices :
    (invoiceCompiler true).registry.Valid ∧ (invoiceCompiler true).registry.StoresReferences ∧
      (invoiceCompiler true).registry.HooksRead ∧ (∀ l ∈ labelledDomain.leaves, ∃ v, l.right = .value v) ∧
      ∃ q t, ((invoiceCompiler true).query 9 "invoice" labelledDomain).Gives {} q t ∧
        (q.select []).fragment.sql = labelledSql ∧ (q.select []).Reads (invoiceCompiler true).registry := by
  have hvalues : ∀ l ∈ labelledDomain.leaves, ∃ v, l.right = .value v := by
    intro l hl
    cases List.mem_singleton.mp hl
    exact ⟨_, rfl⟩
  obtain ⟨q, t, hq, hsql⟩ := labelled_gives true
  have hreads := (compile_reads_columns (invoiceCompiler true) (valid_invoices true) storesReferences_invoices
    (hooksRead_invoices true) 9 "invoice" hvalues).2.1 _ _ _ hq
  exact ⟨valid_invoices true, storesReferences_invoices, hooksRead_invoices true, hvalues, q, t, hq, hsql, hreads⟩

/-- Without a column for the invoice, the SQL is the same, and asks for the column. -/
theorem unstored_reference_read :
    (invoiceCompiler false).registry.Valid ∧ (invoiceCompiler false).registry.HooksRead ∧
      (∃ q t, ((invoiceCompiler false).query 9 "invoice" labelledDomain).Gives {} q t ∧
        (q.select []).fragment.sql = labelledSql) ∧
      ¬(invoiceCompiler false).registry.HasColumn "line" "invoice_id" := by
  have absent : ¬(invoiceLine false).HasColumn "invoice_id" := by
    generalize hname : "invoice_id" = name
    intro h
    cases h with
    | id => exact absurd hname (by decide)
    | path => exact absurd hname (by decide)
    | @field _ f hf hcolumn =>
      subst hname
      cases hf
      exact absurd hcolumn.store (by decide)
  refine ⟨valid_invoices false, hooksRead_invoices false, labelled_gives false, ?_⟩
  rintro ⟨m, hm, htable, hcolumn⟩
  rcases has_invoices hm with rfl | rfl
  · exact absurd htable (by decide)
  · exact absent hcolumn

end Compile
end RecordFilter
