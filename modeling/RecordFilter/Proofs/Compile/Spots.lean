import RecordFilter.Proofs.Compile.Aliases
import RecordFilter.Proofs.Compile.SideBySide

/-! Where leaves come up in a compilation: in which of its queries, past which joins, and whether a negation stays in
    front of them. Where the joins that a query makes are spelled apart, its tables are laid out soundly wherever the
    compilation gets to. -/

namespace RecordFilter
open Sql

variable {V : Type}

/-- Every record of a model refers through a link to a record of another. -/
def Sql.Database.Filled (db : Database V) (m : Model) (link : String) (target : Model) : Prop :=
  ∀ a ∈ db.records m.table, ∃ b ∈ db.records target.table, db.base.equals (a link) (b "id") = true

namespace Compile

/-- Where a leaf comes up. -/
structure Spot where
  /-- The model of the query. -/
  root : Model
  /-- The relations that are joined one after the other to get there. -/
  links : List String
  /-- The model that the leaf is read on. -/
  model : Model
  /-- Whether a negation stays in front of the leaf. -/
  kept : Bool
  /-- No join on the way may miss, so there is a record on every row. -/
  held : Prop

namespace Spot

/-- Where a query starts. -/
def start (m : Model) (kept : Bool) : Spot := ⟨m, [], m, kept, True⟩

def place (x : Spot) : Place := ⟨x.model, aliasAlong x.root.table x.links⟩

/-- Under one more negation, if `kept`. -/
def under (x : Spot) (kept : Bool) : Spot := { x with kept := x.kept || kept }

/-- Past one more join. -/
def past (x : Spot) (db : Database V) (link : String) (target : Model) : Spot :=
  { x with links := x.links ++ [link], model := target, held := x.held ∧ db.Filled x.model link target }

/-- The join to get there. -/
def join (x : Spot) (link : String) (target : Model) : Join := joinAlong x.root.table x.links link target

@[simp]
theorem under_false (x : Spot) : x.under false = x := by
  unfold under
  rw [Bool.or_false]

theorem under_under (x : Spot) (kept kept' : Bool) : (x.under kept).under kept' = x.under (kept || kept') := by
  unfold under
  rw [Bool.or_assoc]

theorem start_under (m : Model) (kept kept' : Bool) : (start m kept).under kept' = start m (kept || kept') := rfl

theorem join_tableAlias (x : Spot) (db : Database V) (link : String) (target : Model) :
    (x.join link target).tableAlias = (x.past db link target).place.tableAlias := joinAlong_tableAlias _ _ _ _

theorem followTo_eq (x : Spot) (db : Database V) (l : Leaf) (link : String) (target : Model) :
    Step.followTo l x.place link target = .follow (x.join link target) ⟨.leaf l, (x.past db link target).place⟩ := by
  show Step.follow (x.join link target) ⟨.leaf l, ⟨target, (x.join link target).tableAlias⟩⟩ = _
  rw [x.join_tableAlias db]
  rfl

end Spot

/-- The leaves that come up when a domain on a model is compiled, in its query and in the queries inside. -/
inductive Comes (db : Database V) (c : Compiler) (m : Model) (d : Domain) : Spot → Leaf → Prop
  | start {t : Term Leaf} {k l} : Domain.distributeNot d = .ok t.spell → t.Bears k l → Comes db c m d (.start m k) l
  | stead {x l n} {t : Term Leaf} {k l'} : Comes db c m d x l →
      Reduces (c.setting c.context) (c.queryIn n) l x.place (.requeue (Work.ofDomain x.place t.spell)) → t.Bears k l' →
      Comes db c m d (x.under k) l'
  | past {x l n l' link target} : Comes db c m d x l →
      Reduces (c.setting c.context) (c.queryIn n) l x.place (.followTo l' x.place link target) →
      Comes db c m d (x.past db link target) l'
  | behind {x l m' d'} {t : Term Leaf} {k l'} : Comes db c m d x l →
      Searches (c.setting c.context) l x.place m' d' → Domain.distributeNot d' = .ok t.spell → t.Bears k l' →
      Comes db c m d (.start m' k) l'

/-- No two chains of joins in a query are spelled alike. -/
def ChainsApart (db : Database V) (c : Compiler) (m : Model) (d : Domain) : Prop :=
  ∀ ⦃x l x' l'⦄, Comes db c m d x l → Comes db c m d x' l' → x'.root = x.root →
    aliasAlong x'.root.table x'.links = aliasAlong x.root.table x.links →
    x'.links = x.links ∧ x'.model.table = x.model.table

/-! ### Models and relations on the way -/

theorem Reduces.traverses {s : Setting} {build : QueryBuilder} {l l' : Leaf} {p : Place} {link : String} {target : Model}
    (h : Reduces s build l p (.followTo l' p link target)) : Traverses s.registry p.model link target := by
  obtain ⟨link', target', htraverses, hjoin, hplace⟩ := h.near
  obtain rfl : link = link' := congrArg Join.sourceColumn hjoin
  cases hplace
  exact htraverses

theorem Searches.has {s : Setting} {l : Leaf} {p : Place} {target : Model} {d : Domain} (h : Searches s l p target d) :
    s.registry.Has target := by
  cases h with
  | path hk =>
    cases classify_ok hk with
    | path _ hcomodel => exact Registry.has_of_comodel hcomodel
  | lines hk =>
    cases classify_ok hk with
    | linesPath _ _ hcomodel => exact Registry.has_of_comodel hcomodel
  | computed _ _ hcomodel => exact Registry.has_of_comodel hcomodel
  | hierarchy hf =>
    cases hf with
    | reference hk =>
      cases classify_ok hk with
      | many2one _ hcomodel => exact Registry.has_of_comodel hcomodel
    | lines hk =>
      cases classify_ok hk with
      | one2many _ _ hcomodel => exact Registry.has_of_comodel hcomodel
  | linked hk =>
    cases classify_ok hk with
    | many2many _ _ _ hcomodel => exact Registry.has_of_comodel hcomodel

section
variable {db : Database V} {c : Compiler} {m : Model} {d : Domain} {x : Spot} {l : Leaf}

/-- Leaves come up where the joins of a query lead from its model. -/
theorem Comes.leads (h : Comes db c m d x l) : Leads c.registry x.root x.links x.model := by
  induction h with
  | start => exact .here m
  | stead _ _ _ ih => exact ih
  | past _ hr ih => exact ih.snoc hr.traverses
  | behind => exact .here _

theorem Comes.has (h : Comes db c m d x l) (hm : c.registry.Has m) : c.registry.Has x.root ∧ c.registry.Has x.model := by
  induction h with
  | start => exact ⟨hm, hm⟩
  | stead _ _ _ ih => exact ih
  | past _ hr ih => exact ⟨ih.1, hr.traverses.has⟩
  | behind _ hs => exact ⟨hs.has, hs.has⟩

/-- So it suffices that no two chains of relations of the registry are spelled alike. -/
theorem ChainsApart.of_speltApart (hm : c.registry.Has m)
    (h : ∀ root, c.registry.Has root → SpeltApart (Leads c.registry root) root.table) : ChainsApart db c m d := by
  intro x l x' l' hx hx' hroot halias
  have hleads' : Leads c.registry x.root x'.links x'.model := hroot ▸ hx'.leads
  rw [hroot] at halias
  exact h x.root (hx.has hm).1 hleads' hx.leads halias

end

/-! ### Without the joins through a field -/

section
variable {r : Registry} {m mid target' : Model} {model field link tableAlias : String} {links : List String}

theorem Traverses.of_apart (h : Traverses (r.apart model field) (m.apart model field) link target') :
    ∃ target, target' = target.apart model field ∧ Traverses r m link target := by
  cases h with
  | delegation hmem hparent =>
    rw [Model.apart_inherits] at hmem
    obtain ⟨target, rfl, htarget⟩ := Registry.model?_of_apart hparent
    exact ⟨target, rfl, .delegation hmem htarget⟩
  | joined hf htype hauto hcomodel =>
    rw [Model.field?_apart] at hf
    obtain ⟨f, hown, rfl⟩ := Option.map_eq_some_iff.mp hf
    split at hauto
    · cases hauto
    · rename_i hother
      rw [if_neg hother] at htype hcomodel
      obtain ⟨target, rfl, htarget⟩ := Registry.comodel_of_apart hcomodel
      exact ⟨target, rfl, .joined hown htype hauto htarget⟩

/-- There are no other chains of relations. -/
theorem Leads.of_apart {m' : Model} (h : Leads (r.apart model field) m' links target') (hm : m' = m.apart model field) :
    ∃ target, target' = target.apart model field ∧ Leads r m links target := by
  induction h generalizing m with
  | here m' => exact ⟨m, hm, .here m⟩
  | through ht _ ih =>
    subst hm
    obtain ⟨mid, rfl, hfirst⟩ := ht.of_apart
    obtain ⟨target, rfl, hrest⟩ := ih rfl
    exact ⟨target, rfl, .through hfirst hrest⟩

theorem SpeltApart.apart (h : SpeltApart (Leads r m) tableAlias) :
    SpeltApart (Leads (r.apart model field) (m.apart model field)) tableAlias := by
  intro links links' target target' hapart hapart' halias
  obtain ⟨target, rfl, hleads⟩ := hapart.of_apart rfl
  obtain ⟨target', rfl, hleads'⟩ := hapart'.of_apart rfl
  rw [Model.apart_table, Model.apart_table]
  exact h hleads hleads' halias

end

/-! ### What stands in the stead of a leaf -/

/-- What a leaf becomes is a condition, a term at its place, or a leaf past a join. -/
theorem Reduces.shape {s : Setting} {build : QueryBuilder} {l : Leaf} {p : Place} {step : Step}
    (h : Reduces s build l p step) :
    (∃ c, step = .emit c) ∨ (∃ t : Term Leaf, step = .requeue (Work.ofDomain p t.spell)) ∨
      ∃ l' link target, step = .followTo l' p link target := by
  have leaf : ∀ l', ∃ t : Term Leaf, Step.leaf l' p = .requeue (Work.ofDomain p t.spell) := fun l' => ⟨.leaf l', rfl⟩
  have domain : ∀ {d e}, Domain.distributeNot d = .ok e →
      ∃ t : Term Leaf, Step.requeue (Work.ofDomain p e) = .requeue (Work.ofDomain p t.spell) := by
    intro d e he
    obtain ⟨ts, -, rfl⟩ := Domain.distributeNot_eq_ok he
    exact ⟨_, rfl⟩
  cases h with
  | holds => exact .inl ⟨_, rfl⟩
  | noLines => exact .inl ⟨_, rfl⟩
  | linkedFound => exact .inl ⟨_, rfl⟩
  | linked => exact .inl ⟨_, rfl⟩
  | plain => exact .inl ⟨_, rfl⟩
  | translated => exact .inl ⟨_, rfl⟩
  | inherited => exact .inr (.inr ⟨_, _, _, rfl⟩)
  | joined => exact .inr (.inr ⟨_, _, _, rfl⟩)
  | hook _ _ _ _ he => exact .inr (.inl (domain he))
  | hierarchy _ _ he => exact .inr (.inl (domain he))
  | heldLines _ he => exact .inr (.inl (domain he))
  | _ => exact .inr (.inl (leaf _))

section
variable {db : Database V} {c : Compiler} {m : Model} {d : Domain} {x : Spot} {l : Leaf}

/-- The leaves of a query come up at its start first. -/
theorem Comes.atStart (h : Comes db c m d x l) : ∃ k l', Comes db c m d (.start x.root k) l' := by
  induction h with
  | start hd hl => exact ⟨_, _, .start hd hl⟩
  | stead _ _ _ ih => exact ih
  | past _ _ ih => exact ih
  | behind hx hs hd hl _ => exact ⟨_, _, .behind hx hs hd hl⟩

/-! ### Queries that are laid out -/

/-- The joins of a query lead on from each other, each to where a leaf came up. -/
structure Tidy (db : Database V) (c : Compiler) (m : Model) (d : Domain) (root : Model) (q : Query) : Prop where
  fresh : (Query.ofTable root.table).Extends q
  laid : Laid q.tableAlias q.joins
  joins : ∀ j ∈ q.joins, ∃ (y : Spot) (l : Leaf) (link : String) (target : Model), y.root = root ∧
    Comes db c m d (y.past db link target) l ∧ j = y.join link target

/-- The table that a leaf is read from is that of the query, or it is joined. -/
def Spot.Joined (x : Spot) (q : Query) : Prop := x.links = [] ∨ q.hasAlias x.place.tableAlias

theorem Tidy.tableAlias {root : Model} {q : Query} (h : Tidy db c m d root q) : q.tableAlias = root.table :=
  h.fresh.tableAlias

theorem tidy_ofTable (root : Model) : Tidy db c m d root (.ofTable root.table) := ⟨.refl _, .nil, nofun⟩

theorem Spot.Joined.past_extends {q q' : Query} (hx : x.Joined q) (h : q.Extends q') : x.Joined q' := by
  refine hx.imp_right fun hq => ?_
  obtain ⟨j, hj, heq⟩ := List.any_eq_true.mp hq
  exact List.any_eq_true.mpr ⟨j, h.joins.subset hj, heq⟩

/-- One more join. If there is one with its alias already, it is the same. -/
theorem Tidy.past {q : Query} (h : Tidy db c m d x.root q) (hx : x.Joined q) (happart : ChainsApart db c m d)
    {link : String} {target : Model} (hl : Comes db c m d (x.past db link target) l) :
    Tidy db c m d x.root (q.addJoin (x.join link target)) ∧
      (x.past db link target).Joined (q.addJoin (x.join link target)) ∧
      x.join link target ∈ (q.addJoin (x.join link target)).joins := by
  have hfirst : (x.join link target).tableAlias ≠ q.tableAlias := by
    intro heq
    rw [x.join_tableAlias db, h.tableAlias] at heq
    obtain ⟨k, l', hstart⟩ := hl.atStart
    obtain ⟨hlinks, -⟩ := happart hstart hl rfl heq
    exact absurd hlinks (by simp [Spot.past, Spot.start])
  have hsource : (x.join link target).sourceAlias = q.tableAlias ∨ q.hasAlias (x.join link target).sourceAlias := by
    refine hx.imp_left fun hnil => ?_
    show aliasAlong x.root.table x.links = q.tableAlias
    rw [hnil, h.tableAlias]
    rfl
  have hsame : ∀ j ∈ q.joins, j.tableAlias = (x.join link target).tableAlias → j = x.join link target := by
    intro j hj hname
    obtain ⟨y, l', link', target', hroot, hy, rfl⟩ := h.joins j hj
    rw [y.join_tableAlias db, x.join_tableAlias db] at hname
    obtain ⟨hlinks, htable⟩ := happart hl hy hroot hname
    obtain ⟨hbefore, hlast⟩ := List.append_inj' hlinks rfl
    cases hlast
    unfold Spot.join joinAlong
    rw [hroot, hbefore, show target'.table = target.table from htable]
  refine ⟨⟨h.fresh.trans (.addJoin q _), ?_, fun j hj => ?_⟩, .inr ?_, ?_⟩
  · rw [(Query.Extends.addJoin q _).tableAlias]
    exact h.laid.addJoin hfirst hsource
  · rcases mem_addJoin hj with hj | rfl
    · exact h.joins j hj
    · exact ⟨x, l, link, target, rfl, hl, rfl⟩
  · rw [← x.join_tableAlias db]
    exact hasAlias_addJoin q _
  · unfold Query.addJoin
    split
    · rename_i hjoined
      obtain ⟨j, hj, heq⟩ := List.any_eq_true.mp hjoined
      exact hsame j hj (by simpa using heq) ▸ hj
    · exact List.mem_append_right _ (List.mem_singleton_self _)

end

/-! ### Trees -/

section
variable {db : Database V} {c : Compiler} {m : Model} {d : Domain}

/-- The leaves of a term come up at a spot, those under a negation below it. -/
def ComeUp (db : Database V) (c : Compiler) (m : Model) (d : Domain) (x : Spot) (t : Term Leaf) : Prop :=
  ∀ k l, t.Bears k l → Comes db c m d (x.under k) l

namespace ComeUp
variable {x : Spot} {t a b : Term Leaf} {l : Leaf}

theorem leaf (h : ComeUp db c m d x (.leaf l)) : Comes db c m d x l := x.under_false ▸ h false l (.leaf l)

theorem of_leaf (h : Comes db c m d x l) : ComeUp db c m d x (.leaf l) := by
  rintro k l' ⟨⟩
  exact x.under_false.symm ▸ h

theorem not (h : ComeUp db c m d x (.not t)) : ComeUp db c m d (x.under true) t := by
  intro k l hl
  rw [x.under_under, Bool.true_or]
  exact h true l (.not hl)

theorem and (h : ComeUp db c m d x (.and a b)) : ComeUp db c m d x a ∧ ComeUp db c m d x b :=
  ⟨fun k l hl => h k l (.andLeft hl), fun k l hl => h k l (.andRight hl)⟩

theorem or (h : ComeUp db c m d x (.or a b)) : ComeUp db c m d x a ∧ ComeUp db c m d x b :=
  ⟨fun k l hl => h k l (.orLeft hl), fun k l hl => h k l (.orRight hl)⟩

end ComeUp

/-- Where a tree has a condition, the query is left tidy. -/
def StaysTidy (db : Database V) (c : Compiler) (m : Model) (d : Domain) (n depth : Nat) (x : Spot) (t : Term Leaf) : Prop :=
  ∀ ⦃q q' tr tr' cond⦄, Tidy db c m d x.root q → x.Joined q →
    treeOutcome (c.setting c.context) (c.queryIn n) depth (t.map (·, x.place)) q tr = ((.ok cond, q'), tr') →
    Tidy db c m d x.root q' ∧ q.Extends q'

/-- The part on the right is compiled first, and the one on the left into the query that it leaves. -/
theorem StaysTidy.combined {n depth : Nat} {x : Spot} {a b : Term Leaf} {op : Cond → Cond → Cond} {q q' : Query}
    {tr tr' : Trace} {cond : Cond} (ha : StaysTidy db c m d n depth x a) (hb : StaysTidy db c m d n depth x b)
    (hq : Tidy db c m d x.root q) (hx : x.Joined q)
    (h : Compile.combined op (treeOutcome (c.setting c.context) (c.queryIn n) depth (a.map (·, x.place)))
      (treeOutcome (c.setting c.context) (c.queryIn n) depth (b.map (·, x.place))) q tr = ((.ok cond, q'), tr')) :
    Tidy db c m d x.root q' ∧ q.Extends q' := by
  obtain ⟨ca, cb, q₁, tr₁, hright, hleft, rfl⟩ := combined_ok h
  obtain ⟨htidy, hextends⟩ := hb hq hx hright
  obtain ⟨htidy', hextends'⟩ := ha htidy (hx.past_extends hextends) hleft
  exact ⟨htidy', hextends.trans hextends'⟩

theorem staysTidy_of_leaf {n depth : Nat}
    (hleaf : ∀ x l, Comes db c m d x l → StaysTidy db c m d n depth x (.leaf l)) {x : Spot} {t : Term Leaf}
    (h : ComeUp db c m d x t) : StaysTidy db c m d n depth x t := by
  induction t generalizing x with
  | const b =>
    intro q q' tr tr' cond hq _ hcond
    cases hcond
    exact ⟨hq, .refl q⟩
  | leaf l => exact hleaf x l h.leaf
  | not t ih =>
    intro q q' tr tr' cond hq hx hcond
    obtain ⟨_, -, ht⟩ := treeOutcome_not_ok hcond
    exact ih h.not hq hx ht
  | and a b iha ihb =>
    intro q q' tr tr' cond hq hx hcond
    rw [Term.map, treeOutcome_and] at hcond
    exact (iha h.and.1).combined (ihb h.and.2) hq hx hcond
  | or a b iha ihb =>
    intro q q' tr tr' cond hq hx hcond
    rw [Term.map, treeOutcome_or] at hcond
    exact (iha h.or.1).combined (ihb h.or.2) hq hx hcond

/-- What a leaf comes to, step by step: its condition, that of a term at its place, or that of a leaf past a join. -/
theorem leaf_ok (db : Database V) {n depth : Nat} {x : Spot} {l : Leaf} {q q' : Query} {tr tr' : Trace} {cond : Cond}
    (h : treeOutcome (c.setting c.context) (c.queryIn n) (depth + 1) (.leaf (l, x.place)) q tr = ((.ok cond, q'), tr')) :
    ∃ step tr₁, (reduce (c.setting c.context) (c.queryIn n) l x.place).Gives tr step tr₁ ∧
      (∀ cond', step = .emit cond' → cond' = cond ∧ q' = q) ∧
      (∀ t : Term Leaf, step = .requeue (Work.ofDomain x.place t.spell) →
        treeOutcome (c.setting c.context) (c.queryIn n) depth (t.map (·, x.place)) q tr₁ = ((.ok cond, q'), tr')) ∧
      ∀ l' link target, step = .followTo l' x.place link target →
        treeOutcome (c.setting c.context) (c.queryIn n) depth
          ((Term.leaf l').map (·, (x.past db link target).place)) (q.addJoin (x.join link target)) tr₁ =
          ((.ok cond, q'), tr') := by
  obtain ⟨step, tr₁, hreduce, hstep⟩ := treeOutcome_leaf_ok h
  refine ⟨step, tr₁, hreduce, ?_, ?_, ?_⟩
  · rintro cond' rfl
    rcases hstep with ⟨hemit, hq⟩ | ⟨_, hrequeue, _⟩ | ⟨_, _, hfollow, _⟩
    · cases hemit
      exact ⟨rfl, hq⟩
    · cases hrequeue
    · cases hfollow
  · rintro t rfl
    rcases hstep with ⟨hemit, _⟩ | ⟨items, hrequeue, htree⟩ | ⟨_, _, hfollow, _⟩
    · cases hemit
    · cases hrequeue
      exact htree _ (spells_ofDomain t x.place)
    · cases hfollow
  · rintro l' link target rfl
    rcases hstep with ⟨hemit, _⟩ | ⟨items, hrequeue, _⟩ | ⟨join, item, hfollow, htree⟩
    · cases hemit
    · cases hrequeue
    · rw [x.followTo_eq db] at hfollow
      cases hfollow
      exact htree _ (.leaf l' _)

theorem ComeUp.staysTidy (happart : ChainsApart db c m d) (n depth : Nat) {x : Spot} {t : Term Leaf}
    (h : ComeUp db c m d x t) : StaysTidy db c m d n depth x t := by
  -- By induction on the replacements in the stead of a leaf.
  induction depth generalizing x t with
  | zero =>
    refine staysTidy_of_leaf (fun x l _ q q' tr tr' cond _ _ hcond => ?_) h
    cases hcond
  | succ depth ih =>
    refine staysTidy_of_leaf (fun x l hl q q' tr tr' cond hq hx hcond => ?_) h
    obtain ⟨step, tr₁, hreduce, hemit, hstead, hpast⟩ := leaf_ok db hcond
    have hreduces : Reduces (c.setting c.context) (c.queryIn n) l x.place step := reduce_meets.gives hreduce
    rcases hreduces.shape with ⟨c', rfl⟩ | ⟨t, rfl⟩ | ⟨l', link, target, rfl⟩
    · obtain ⟨-, rfl⟩ := hemit c' rfl
      exact ⟨hq, .refl _⟩
    · exact ih (x := x) (fun k l' hl' => .stead hl hreduces hl') hq hx (hstead t rfl)
    · have hl' : Comes db c m d (x.past db link target) l' := .past hl hreduces
      obtain ⟨htidy, hjoined, -⟩ := hq.past hx happart hl'
      obtain ⟨htidy', hextends⟩ := ih (.of_leaf hl') htidy hjoined (hpast l' link target rfl)
      exact ⟨htidy', (Query.Extends.addJoin q _).trans hextends⟩

/-! ### Conditions -/

/-- Into a tidy query a term at a spot is compiled: to a condition, with more joins in the query. -/
inductive Compiles (db : Database V) (c : Compiler) (m : Model) (d : Domain) (n depth : Nat) (x : Spot) (t : Term Leaf)
    (cond : Cond) (q' : Query) : Prop
  | into {q tr tr'} : Tidy db c m d x.root q → x.Joined q →
      treeOutcome (c.setting c.context) (c.queryIn n) depth (t.map (·, x.place)) q tr = ((.ok cond, q'), tr') →
      Compiles db c m d n depth x t cond q'

namespace Compiles
variable {n depth : Nat} {x : Spot} {t a b : Term Leaf} {l : Leaf} {cond : Cond} {q' : Query}

theorem tidy (h : Compiles db c m d n depth x t cond q') (happart : ChainsApart db c m d) (ht : ComeUp db c m d x t) :
    Tidy db c m d x.root q' := by
  obtain ⟨hq, hx, hcond⟩ := h
  exact (ht.staysTidy happart n depth hq hx hcond).1

theorem const {value : Bool} (h : Compiles db c m d n depth x (.const value) cond q') : cond = .literal value := by
  obtain ⟨-, -, hcond⟩ := h
  cases hcond
  rfl

theorem not (h : Compiles db c m d n depth x (.not t) cond q') :
    ∃ cond₁, cond = .not cond₁ ∧ Compiles db c m d n depth (x.under true) t cond₁ q' := by
  obtain ⟨hq, hx, hcond⟩ := h
  obtain ⟨cond₁, rfl, ht⟩ := treeOutcome_not_ok hcond
  exact ⟨cond₁, rfl, hq, hx, ht⟩

/-- The part on the right is compiled first, and the one on the left keeps its joins. -/
theorem combined {op : Cond → Cond → Cond} {q : Query} {tr tr' : Trace} (happart : ChainsApart db c m d)
    (ha : ComeUp db c m d x a) (hb : ComeUp db c m d x b) (hq : Tidy db c m d x.root q) (hx : x.Joined q)
    (h : Compile.combined op (treeOutcome (c.setting c.context) (c.queryIn n) depth (a.map (·, x.place)))
      (treeOutcome (c.setting c.context) (c.queryIn n) depth (b.map (·, x.place))) q tr = ((.ok cond, q'), tr')) :
    ∃ ca cb q₁, cond = op ca cb ∧ Compiles db c m d n depth x a ca q' ∧ Compiles db c m d n depth x b cb q₁ ∧
      q₁.Extends q' := by
  obtain ⟨ca, cb, q₁, tr₁, hright, hleft, rfl⟩ := combined_ok h
  obtain ⟨htidy, hextends⟩ := hb.staysTidy happart n depth hq hx hright
  have hjoined : x.Joined q₁ := hx.past_extends hextends
  exact ⟨ca, cb, q₁, rfl, .into htidy hjoined hleft, .into hq hx hright,
    (ha.staysTidy happart n depth htidy hjoined hleft).2⟩

theorem and (h : Compiles db c m d n depth x (.and a b) cond q') (happart : ChainsApart db c m d)
    (ht : ComeUp db c m d x (.and a b)) :
    ∃ ca cb q₁, cond = .and ca cb ∧ Compiles db c m d n depth x a ca q' ∧ Compiles db c m d n depth x b cb q₁ ∧
      q₁.Extends q' := by
  obtain ⟨hq, hx, hcond⟩ := h
  rw [Term.map, treeOutcome_and] at hcond
  exact combined happart ht.and.1 ht.and.2 hq hx hcond

theorem or (h : Compiles db c m d n depth x (.or a b) cond q') (happart : ChainsApart db c m d)
    (ht : ComeUp db c m d x (.or a b)) :
    ∃ ca cb q₁, cond = .or ca cb ∧ Compiles db c m d n depth x a ca q' ∧ Compiles db c m d n depth x b cb q₁ ∧
      q₁.Extends q' := by
  obtain ⟨hq, hx, hcond⟩ := h
  rw [Term.map, treeOutcome_or] at hcond
  exact combined happart ht.or.1 ht.or.2 hq hx hcond

theorem leaf (h : Compiles db c m d n (depth + 1) x (.leaf l) cond q') (happart : ChainsApart db c m d)
    (hl : Comes db c m d x l) :
    ∃ step tr tr₁, (reduce (c.setting c.context) (c.queryIn n) l x.place).Gives tr step tr₁ ∧
      (∀ cond', step = .emit cond' → cond' = cond) ∧
      (∀ t : Term Leaf, step = .requeue (Work.ofDomain x.place t.spell) → Compiles db c m d n depth x t cond q') ∧
      ∀ l' link target, step = .followTo l' x.place link target →
        Compiles db c m d n depth (x.past db link target) (.leaf l') cond q' ∧ x.join link target ∈ q'.joins := by
  obtain ⟨hq, hx, hcond⟩ := h
  rename_i q tr tr'
  obtain ⟨step, tr₁, hreduce, hemit, hstead, hpast⟩ := leaf_ok db hcond
  refine ⟨step, tr, tr₁, hreduce, fun cond' hstep => (hemit cond' hstep).1, fun t hstep => .into hq hx (hstead t hstep),
    fun l' link target hstep => ?_⟩
  have hl' : Comes db c m d (x.past db link target) l' := .past hl (hstep ▸ reduce_meets.gives hreduce)
  obtain ⟨htidy, hjoined, hmem⟩ := hq.past hx happart hl'
  have hrest := hpast l' link target hstep
  obtain ⟨-, hextends⟩ := (ComeUp.of_leaf hl').staysTidy happart n depth htidy hjoined hrest
  exact ⟨.into htidy hjoined hrest, hextends.joins.subset hmem⟩

theorem of_zero (h : Compiles db c m d n 0 x (.leaf l) cond q') : False := by
  obtain ⟨-, -, hcond⟩ := h
  cases hcond

theorem emit (h : Compiles db c m d n depth x (.leaf l) cond q') {cond' : Cond}
    (hyields : (reduce (c.setting c.context) (c.queryIn n) l x.place).Yields (.emit cond')) : cond = cond' := by
  cases depth with
  | zero => exact h.of_zero.elim
  | succ depth =>
    obtain ⟨-, -, hcond⟩ := h
    obtain ⟨step, tr₁, hreduce, hemit, -, -⟩ := leaf_ok db hcond
    obtain ⟨tr₂, hgives⟩ := hyields _
    cases hreduce.symm.trans hgives
    exact (hemit cond' rfl).1.symm

end Compiles

/-! ### Queries -/

namespace Tidy
variable {root : Model} {q : Query}

theorem laidFromRoot (h : Tidy db c m d root q) : Laid root.table q.joins := h.tableAlias ▸ h.laid

theorem condition (h : Tidy db c m d root q) (cond : Cond) : (q.addCondition cond).condition = cond := by
  have hnone : q.conditions = [] := h.fresh.conditions
  unfold Query.condition Query.addCondition
  rw [hnone]
  rfl

theorem tables (h : Tidy db c m d root q) (cond : Cond) :
    (q.addCondition cond).tables = ⟨root.table, root.table, q.joins⟩ := by
  show Tables.mk q.table q.tableAlias q.joins = _
  rw [h.tableAlias, show q.table = root.table from h.fresh.table]

/-- The records of the table on whose rows the condition is true. -/
theorem selects (h : Tidy db c m d root q) (cond : Cond) (a : Record V) :
    db.Selects (q.addCondition cond) a ↔
      ∃ row ∈ db.tableRows ⟨root.table, root.table, q.joins⟩, (cond.truth db.engine row).holds = true ∧
        row.record root.table = a := by
  unfold Database.Selects
  rw [h.condition, h.tables, show (q.addCondition cond).tableAlias = root.table from h.tableAlias]

theorem mem_of_selects (h : Tidy db c m d root q) {cond : Cond} {a : Record V}
    (ha : db.Selects (q.addCondition cond) a) : a ∈ db.records root.table := by
  obtain ⟨row, hrow, -, rfl⟩ := (h.selects cond a).mp ha
  exact (h.laidFromRoot.fits hrow).1

/-- No rows are left out. -/
theorem window (h : Tidy db c m d root q) : q.window.limit = none ∧ q.window.offset = 0 := by
  rw [h.fresh.window]
  exact ⟨rfl, rfl⟩

end Tidy

/-- A compiled query leaves no rows out. -/
theorem query_window {ctx : Context} {name : String} {e : Domain} {n : Nat} {q : Query} {tr tr' : Trace}
    (h : (c.queryIn n ctx name e).Gives tr q tr') : q.window.limit = none ∧ q.window.offset = 0 := by
  cases n with
  | zero => cases h
  | succ n =>
    obtain ⟨root, e', -, -, ⟨-, rfl⟩ | ⟨-, cond, q', tr₁, hon, rfl⟩⟩ := queryIn_gives h
    · exact ⟨rfl, rfl⟩
    · have hwindow : (q'.addCondition cond).window = {} := (compileOn_extends hon).window
      rw [hwindow]
      exact ⟨rfl, rfl⟩

/-- The query of a domain has the condition of its term, unless there is no term. -/
theorem query_compiles (db : Database V) (m : Model) (d : Domain) {name : String} {e : Domain} {n : Nat} {q : Query}
    {tr tr' : Trace} (hactive : c.context.activeTest = false) (h : (c.queryIn n c.context name e).Gives tr q tr') :
    ∃ root, c.registry.model name = .ok root ∧
      (e = [] ∧ q = .ofTable root.table ∨
        e ≠ [] ∧ ∃ n' e' cond q', n = n' + 1 ∧ Domain.distributeNot e = .ok e' ∧ q = q'.addCondition cond ∧
          ∀ t : Term Leaf, e' = t.spell → Compiles db c m d n' n' (.start root false) t cond q') := by
  cases n with
  | zero => cases h
  | succ n =>
    obtain ⟨root, e₁, hroot, he₁, hquery⟩ := queryIn_gives h
    cases he₁.symm.trans (withActive_of_off hactive root e)
    refine ⟨root, hroot, hquery.imp_right fun ⟨hne, cond, q', tr₁, hon, hq⟩ => ⟨hne, ?_⟩⟩
    rw [compileOn_eq_domain (Nat.le_refl n) _ _ _ _ (by rw [hon]; nofun)] at hon
    unfold Assembly.domain at hon
    cases he : Domain.distributeNot e with
    | error e =>
      rw [he] at hon
      cases hon
    | ok e' =>
      rw [he] at hon
      refine ⟨n, e', cond, q', rfl, rfl, hq, ?_⟩
      rintro t rfl
      dsimp only at hon
      rw [(spells_ofDomain t _).work_eq] at hon
      exact .into (tidy_ofTable root) (.inl rfl) hon

end
end Compile
end RecordFilter
