import RecordFilter.Proofs.Compile.Frames
import RecordFilter.Proofs.Compile.Invariants
import RecordFilter.Proofs.Compile.Settling
import RecordFilter.Proofs.Domain.Paths
import RecordFilter.Proofs.Domain.Verdicts
import RecordFilter.Proofs.Sql.Database

/-! Where a search for a domain is over before it starts, the query of the domain finds nothing: a leaf that is
    `in` an empty set becomes a condition that no row satisfies. Leaves that diverge are the exception: those
    that lead to a field without a column or to an attachment, where what cannot be asked is taken to hold, and
    those that compare a field with a value that counts as false without being a list. -/

namespace RecordFilter

/-- Whether the operand counts as an empty set without being a list. -/
def Operand.isUnlisted : Operand → Bool
  | .value (.arr _) => false
  | operand => operand.isEmptySet

/-- The database finds no records for a domain that is false by itself. -/
def Backend.KnowsFalse (b : Backend) : Prop :=
  ∀ history m d options ids, d.isFalse = .ok true → b.search history m d options = .ok ids → ids = []

namespace Compile
open Sql

/-! ### Leaves that diverge -/

/-- The leaf compares a field itself, not one that the path goes on to. -/
def FieldKind.isDirect : FieldKind → Bool
  | .idHierarchy | .one2many .. | .many2many .. | .many2one _ | .datetime | .translatable | .plain => true
  | .inherited .. | .joinedPath .. | .linesPath .. | .path .. | .computed _ | .attachment _ => false

/-- Leaves that do not stand for an empty set although their operand counts as one. Delegations and joined
    fields lead on to the field that decides. -/
inductive Diverges (r : Registry) : Model → Leaf → Prop
  | inherited {m l parent link} : classify r m l = .ok (.inherited parent link) → Diverges r parent l → Diverges r m l
  | joined {m l comodel rest} : classify r m l = .ok (.joinedPath comodel rest) →
      Diverges r comodel { l with left := rest } → Diverges r m l
  | lines {m l f comodel rest} : classify r m l = .ok (.linesPath f comodel rest) →
      Diverges r comodel { l with left := rest } → Diverges r m l
  | linesOwners {m l f comodel rest} (owners) : classify r m l = .ok (.linesPath f comodel rest) →
      Diverges r m ⟨"id", .within, .subquery owners⟩ → Diverges r m l
  | owners {m l f comodel lines} (owners) : classify r m l = .ok (.one2many f comodel) → l.right = .subquery lines →
      Diverges r m ⟨"id", .within, .subquery owners⟩ → Diverges r m l
  | computed {m l f} : classify r m l = .ok (.computed f) → Diverges r m l
  | attachment {m l f} : classify r m l = .ok (.attachment f) → Diverges r m l
  | unlisted {m l kind} : classify r m l = .ok kind → kind.isDirect → l.right.isUnlisted → Diverges r m l

section
variable {r : Registry} {m : Model} {l : Leaf}

/-- A leaf without a rest of its path compares the field itself, if the field has a column. -/
theorem classifyField_direct {f : Field} {kind : FieldKind} (h : classifyField r f = .ok kind) :
    kind.isDirect ∨ (∃ f, kind = .computed f) ∨ ∃ f, kind = .attachment f := by
  unfold classifyField at h
  split at h
  · cases h
    exact .inr (.inl ⟨_, rfl⟩)
  · split at h
    · obtain ⟨comodel, -, rfl⟩ := comodel_of_map h
      exact .inl rfl
    · obtain ⟨comodel, -, rfl⟩ := comodel_of_map h
      exact .inl rfl
    · obtain ⟨comodel, -, rfl⟩ := comodel_of_map h
      exact .inl rfl
    · split at h
      · cases h
        exact .inr (.inr ⟨_, rfl⟩)
      · split at h <;> cases h <;> exact .inl rfl
    · cases h
      exact .inl rfl
    · split at h <;> cases h <;> exact .inl rfl

/-- Only a path that goes on leads to another model than through a delegation. -/
theorem rest_of_classify {kind : FieldKind} (h : classify r m l = .ok kind) (hrest : l.path.2 = none) :
    kind.isDirect ∨ (∃ parent link, kind = .inherited parent link) ∨ (∃ f, kind = .computed f) ∨
      ∃ f, kind = .attachment f := by
  unfold classify at h
  dsimp only at h
  rw [hrest] at h
  split at h
  · cases h
  · cases h
    exact .inr (.inl ⟨_, _, rfl⟩)
  · dsimp only at h
    split at h
    · cases h
      exact .inl rfl
    · exact (classifyField_direct h).imp_right .inr

/-- A path that is searched apart goes on behind a relational field, and that field alone is compared by ids. -/
theorem classify_head {f : Field} {comodel : Model} {rest : String} (h : classify r m l = .ok (.path f comodel rest))
    (right : Operand) :
    l.path.2 = some rest ∧ ∃ kind, classify r m ⟨l.path.1, .within, right⟩ = .ok kind ∧
      (kind = .one2many f comodel ∨ kind = .many2many f comodel ∨ kind = .many2one comodel) := by
  cases hrest : l.path.2 with
  | none =>
    rcases rest_of_classify h hrest with hk | ⟨_, _, hk⟩ | ⟨_, hk⟩ | ⟨_, hk⟩ <;> cases hk
  | some rest' =>
    have hpath : (Leaf.mk l.path.1 .within right).path = (l.path.1, none) := l.path_head
    unfold classify at h ⊢
    rw [hpath]
    dsimp only at h ⊢
    rw [hrest] at h
    split at h
    · cases h
    · cases h
    · rename_i g hresolve
      dsimp only at h
      unfold classifyPath at h
      split at h
      · cases h
      · rename_i hstore
        split at h
        · cases h
        · rename_i hrelational
          split at h
          · cases h
          · rename_i comodel' hcomodel
            split at h
            · split at h <;> cases h
            · cases h
              refine ⟨rfl, ?_⟩
              simp only [Operator.isHierarchy, Bool.and_false, Bool.false_eq_true, if_false, classifyField, hstore,
                hcomodel]
              cases htype : f.type <;> simp [htype, FieldType.isRelational, Except.map] at hrelational ⊢

end

/-! ### Conditions that find nothing -/

section
variable {V : Type} (db : Database V) {r : Registry} {s : Setting} {build : QueryBuilder} {l : Leaf} {p : Place}

/-- No row satisfies the condition. -/
def FindsNothing (c : Cond) : Prop := ∀ row, (c.truth db.engine row).holds = false

variable {db}

theorem member_findsNothing (x : Expr) {set : Values} (h : set.members db.engine = []) :
    FindsNothing db (.group (.member x true set)) := by
  intro row
  show ((Cond.member x true set).truth db.engine row).holds = false
  rw [Cond.truth, h]
  rfl

theorem linked_findsNothing (link : Link) {set : Values} (h : set.members db.engine = []) :
    FindsNothing db (.linked true link set) := by
  intro row
  have hnone : ∀ id, (db.engine.member id []).holds = false := fun _ => rfl
  rw [Cond.truth, h]
  simp [hnone]

theorem literal_findsNothing : FindsNothing db (.literal false) := fun _ => rfl

variable (db) in
/-- Leaves that ask for a value in an operand that holds none. -/
inductive SeeksNothing : Leaf → Prop
  | value {left v} : (Operand.value v).isEmptySet → SeeksNothing ⟨left, .within, .value v⟩
  | rows {left sub} : db.engine.rows sub = [] → (Leaf.mk left .within (.subquery sub)).path.2 = none →
      SeeksNothing ⟨left, .within, .subquery sub⟩

theorem seeksNothing_id {sub : Select} (h : db.engine.rows sub = []) : SeeksNothing db ⟨"id", .within, .subquery sub⟩ :=
  .rows h (congrArg Prod.snd (Leaf.path_of_dotless (by decide)))

theorem SeeksNothing.op_eq (h : SeeksNothing db l) : l.op = .within := by
  cases h <;> rfl

/-- An empty set that is not unlisted is the empty list. -/
theorem eq_nil_of_isEmptySet {v : Json} (h : (Operand.value v).isEmptySet) (hlist : (Operand.value v).isUnlisted = false) :
    v = .arr [] := by
  cases v with
  | arr items => rw [List.isEmpty_iff.mp h]
  | _ => exact absurd h (by simpa [Operand.isUnlisted] using hlist)

theorem SeeksNothing.plainCondition (h : SeeksNothing db l) (hlist : l.right.isUnlisted = false) {ctx : Context}
    {c : Cond} (hc : plainCondition l p ctx = .ok c) : FindsNothing db c := by
  unfold Compile.plainCondition at hc
  split at hc
  · cases hc
  · cases h with
    | value hempty =>
      cases eq_nil_of_isEmptySet hempty hlist
      cases hc
      exact literal_findsNothing
    | rows hrows _ =>
      cases hc
      exact member_findsNothing _ hrows

variable (db) in
/-- The query finds no rows, and leaves none out. -/
structure QueryFindsNothing (q : Query) : Prop where
  condition : FindsNothing db q.condition
  window : q.window = {}

theorem QueryFindsNothing.rows {q : Query} (h : QueryFindsNothing db q) (c : Column) :
    db.engine.rows (q.subselect (.column c)) = [] := by
  have hselect : q.subselect (.column c) = .rows (.column c) q.tables q.condition {} := by
    simp [Query.subselect, h.window]
  rw [hselect, List.eq_nil_iff_forall_not_mem]
  intro x hx
  obtain ⟨row, -, hrow, -⟩ := db.mem_rows.mp hx
  rw [h.condition row] at hrow
  cases hrow

theorem owners_rows {table column : String} {sub : Select} (h : db.engine.rows sub = []) :
    db.engine.rows (.owners table column (.select sub)) = [] := by
  rw [List.eq_nil_iff_forall_not_mem]
  intro x hx
  obtain ⟨r, -, hmember, -⟩ := db.mem_owners.mp hx
  have hset : (Values.select sub).members db.engine = [] := h
  rw [hset] at hmember
  cases hmember

/-! ### Reducing a leaf that seeks nothing -/

variable (db r) in
/-- A leaf that stands for an empty set at its place. -/
structure Hopeless (x : Leaf × Place) : Prop where
  seeks : SeeksNothing db x.1
  straight : ¬Diverges r x.2.model x.1

variable (db r) in
/-- What becomes of a hopeless leaf. -/
def StepHopeless : Step → Prop
  | .emit c => FindsNothing db c
  | .requeue items => ∃ t, Spells items t ∧ t.Vain (Hopeless db r)
  | .follow _ item => ∃ l, item.token = .leaf l ∧ Hopeless db r (l, item.place)

theorem stepHopeless_leaf (h : Hopeless db r (l, p)) : StepHopeless db r (.leaf l p) := ⟨_, .leaf l p, .leaf h⟩

variable (db) in
/-- The queries for leaves that stand for empty sets find nothing. -/
def BuildsNothing (r : Registry) (build : QueryBuilder) : Prop :=
  ∀ ctx m l q, r.Has m → SeeksNothing db l → ¬Diverges r m l → Builds build ctx m.name [.leaf l] q → QueryFindsNothing db q

theorem emitLeaf_hopeless (h : SeeksNothing db l) (hlist : l.right.isUnlisted = false) :
    (emitLeaf s l p).Meets (StepHopeless db r) (fun _ => True) := by
  unfold emitLeaf
  refine .bind (.ofExcept (P := FindsNothing db) (fun _ hc => h.plainCondition hlist hc) fun _ _ => trivial) fun c hc => ?_
  have emit : (pure (Step.emit c) : Run Step).Meets (StepHopeless db r) (fun _ => True) := .pure hc
  cases leafNotice? l with
  | none => exact emit
  | some notice => exact .bind (.log _ _) fun _ _ => emit

/-- Nothing has to be searched for a domain that is false by itself. -/
theorem findWith_false {ctx : Context} {model : String} {d : Domain} (h : d.isFalse = .ok true) :
    (findWith build ctx model d).Meets (· = .nothing) (fun _ => True) := by
  unfold findWith
  rw [h]
  exact .bind (P := (· = true)) (.pure rfl) fun b hb => by
    rw [if_pos hb]
    exact .pure rfl

theorem lineIds_false (hb : s.backend.KnowsFalse) {comodel : Model} {d : Domain} (h : d.isFalse = .ok true) :
    (lineIds s comodel d).Meets (· = []) (fun _ => True) :=
  .bind (.record _) fun _ _ => .ofExcept (fun _ hids => hb _ _ _ _ _ h hids) fun _ _ => trivial

theorem isFalse_ofLeaf {left : String} {v : Json} (h : (Operand.value v).isEmptySet) :
    (Domain.ofLeaf left .within (.value v)).isFalse = .ok true := by
  have hterms : Domain.terms? (Domain.ofLeaf left .within (.value v)) = some [.leaf ⟨left, .within, .value v⟩] := rfl
  have hverdict : (Leaf.mk left .within (.value v)).verdict = .never := Leaf.verdict_eq_never.mpr ⟨rfl, h⟩
  rw [Domain.isFalse_of_terms? hterms]
  exact congrArg Except.ok (decide_eq_true hverdict)

theorem reducePath_hopeless (hb : s.backend.KnowsFalse) {f : Field} {comodel : Model} {rest : String}
    (hk : classify s.registry p.model l = .ok (.path f comodel rest)) (hl : SeeksNothing db l) :
    (reducePath s build l l.path.1 rest p f comodel).Meets (StepHopeless db s.registry) (fun _ => True) := by
  obtain ⟨hrest, kind, hhead, hkind⟩ := classify_head hk (.value (.arr []))
  have straight : ¬Diverges s.registry p.model ⟨l.path.1, .within, .value (.arr [])⟩ := by
    intro hd
    cases hd with
    | inherited hk' _ | joined hk' _ | lines hk' _ | linesOwners _ hk' _ | computed hk' | attachment hk' =>
      rw [hk'] at hhead
      cases hhead
      rcases hkind with h | h | h <;> cases h
    | owners _ _ hright _ => cases hright
    | unlisted _ _ hright => cases hright
  unfold reducePath
  refine .bind (P := (· = .value (.arr []))) ?_ fun operand ho =>
    .pure (stepHopeless_leaf (ho ▸ ⟨.value rfl, straight⟩))
  cases hl with
  | rows _ hdotless =>
    rw [hdotless] at hrest
    cases hrest
  | value hempty =>
    have found : ∀ ctx, (findWith build ctx comodel.name (Domain.ofLeaf rest .within (.value _)) >>=
        fun x => pure x.operand : Run Operand).Meets (· = .value (.arr [])) (fun _ => True) := fun ctx =>
      .bind (findWith_false (isFalse_ofLeaf hempty)) fun _ hx => .pure (hx ▸ rfl)
    unfold reducePath.target
    split
    · exact found _
    · refine .bind (P := fun _ => True) (.ofExcept (fun _ _ => trivial) fun _ _ => trivial) fun name _ => ?_
      split
      · exact .bind (lineIds_false hb (isFalse_ofLeaf hempty)) fun _ hids => .pure (hids ▸ rfl)
      · exact found _
    · exact found _

/-- No record is named by an operand that holds no value. -/
inductive NamesNone (db : Database V) : Related → Prop
  | ids : NamesNone db (.ids [])
  | rows {sub} : db.engine.rows sub = [] → NamesNone db (.rows sub)

theorem relatedOf_hopeless (hl : SeeksNothing db l) (hlist : l.right.isUnlisted = false) (comodel : Model) :
    (relatedOf s l comodel).Meets (NamesNone db) (fun _ => True) := by
  cases hl with
  | value hempty =>
    cases eq_nil_of_isEmptySet hempty hlist
    exact .pure .ids
  | rows hrows _ => exact .pure (.rows hrows)

theorem SeeksNothing.isUnset (hl : SeeksNothing db l) (hlist : l.right.isUnlisted = false) : l.right.isUnset = false := by
  cases hl with
  | value hempty =>
    cases eq_nil_of_isEmptySet hempty hlist
    rfl
  | rows _ _ => rfl

theorem reduceOne2many_hopeless {f : Field} {comodel : Model}
    (hk : classify s.registry p.model l = .ok (.one2many f comodel)) (h : Hopeless db s.registry (l, p))
    (hlist : l.right.isUnlisted = false) :
    (reduceOne2many s build l p f comodel).Meets (StepHopeless db s.registry) (fun _ => True) := by
  unfold reduceOne2many
  refine .bind (P := fun _ => True) (.ofExcept (fun _ _ => trivial) fun _ _ => trivial) fun inverse _ => ?_
  have hop : l.op = .within := h.seeks.op_eq
  have hunset := h.seeks.isUnset hlist
  simp only [hop, hunset, Direction.ofOperator?, Operator.isNegative, Bool.false_eq_true, if_false]
  -- The records are named by the operand, so the subquery of their owners comes from it.
  refine .bind (P := fun related => NamesNone db related ∧ ∀ sub, related = .rows sub → l.right = .subquery sub)
    ?_ fun related hr => ?_
  · have hboth := relatedOf_hopeless (s := s) h.seeks hlist comodel
    have hnames : (relatedOf s l comodel).Meets (Names l) (Fails s build l p) :=
      fails_admits.relatedOf comodel
    refine ⟨fun hg => ⟨hboth.gives hg, fun sub hsub => ?_⟩, fun _ => trivial⟩
    cases hnames.gives hg with
    | ids _ => cases hsub
    | operand hright =>
      cases hsub
      exact hright
  · obtain ⟨hnone, hsub⟩ := hr
    cases hnone with
    | ids =>
      cases inverse.store
      · exact .pure literal_findsNothing
      · exact .pure literal_findsNothing
    | @rows sub hrows =>
      cases inverse.store
      · exact .fail trivial
      · refine .pure (stepHopeless_leaf ⟨seeksNothing_id (owners_rows hrows), fun hd => h.straight ?_⟩)
        exact .owners _ hk (hsub sub rfl) hd

theorem reduceMany2many_hopeless {f : Field} {comodel : Model} (hl : SeeksNothing db l)
    (hlist : l.right.isUnlisted = false) :
    (reduceMany2many s build l p f comodel).Meets (StepHopeless db s.registry) (fun _ => True) := by
  unfold reduceMany2many
  split
  · exact .fail trivial
  · rename_i relation _
    have hop : l.op = .within := hl.op_eq
    have hunset := hl.isUnset hlist
    simp only [hop, hunset, Direction.ofOperator?, Operator.isNegative, Bool.false_eq_true, if_false]
    refine .bind (relatedOf_hopeless hl hlist comodel) fun related hr => .pure ?_
    cases hr with
    | ids => exact literal_findsNothing
    | rows hrows => exact linked_findsNothing _ hrows

theorem reduceMany2one_hopeless {head : String} {comodel : Model} (hl : SeeksNothing db l)
    (hlist : l.right.isUnlisted = false) :
    (reduceMany2one s build l head p comodel).Meets (StepHopeless db s.registry) (fun _ => True) := by
  have emit := emitLeaf_hopeless (s := s) (r := s.registry) (p := p) hl hlist
  unfold reduceMany2one
  cases hl with
  | value hempty =>
    cases eq_nil_of_isEmptySet hempty hlist
    exact emit
  | rows _ _ => exact emit

/-- A leaf on several lines asks for the owners of lines that nobody finds. -/
theorem reduceLines_hopeless (hbuild : BuildsNothing db s.registry build) {f : Field} {comodel : Model}
    {rest : String} (hk : classify s.registry p.model l = .ok (.linesPath f comodel rest))
    (h : Hopeless db s.registry (l, p)) :
    (reduceKind s build l p (.linesPath f comodel rest)).Meets (StepHopeless db s.registry) (fun _ => True) := by
  have hhas : s.registry.Has comodel := by
    cases classify_ok hk with
    | linesPath _ _ hcomodel => exact Registry.has_of_comodel hcomodel
  have hrest : SeeksNothing db { l with left := rest } := by
    have hseeks := h.seeks
    cases hseeks with
    | value hempty => exact .value hempty
    | rows _ hdotless =>
      rcases rest_of_classify hk hdotless with hk | ⟨_, _, hk⟩ | ⟨_, hk⟩ | ⟨_, hk⟩ <;> cases hk
  rw [reduceKind]
  refine .bind (P := fun _ => True) (.ofExcept (fun _ _ => trivial) fun _ _ => trivial) fun inverse _ => ?_
  refine .bind (P := QueryFindsNothing db) ⟨fun hg => ?_, fun _ => trivial⟩ fun lines hlines => .pure ?_
  · exact hbuild _ _ _ _ hhas hrest (fun hd => h.straight (.lines hk hd)) ⟨_, _, hg⟩
  · exact stepHopeless_leaf ⟨seeksNothing_id (hlines.rows _), fun hd => h.straight (.linesOwners _ hk hd)⟩

theorem reduceKind_hopeless (hbuild : BuildsNothing db s.registry build) (hb : s.backend.KnowsFalse)
    {kind : FieldKind} (hk : classify s.registry p.model l = .ok kind) (h : Hopeless db s.registry (l, p)) :
    (reduceKind s build l p kind).Meets (StepHopeless db s.registry) (fun _ => True) := by
  have listed : kind.isDirect → l.right.isUnlisted = false := fun hd => by
    cases hright : l.right.isUnlisted with
    | false => rfl
    | true => exact absurd (.unlisted hk hd hright) h.straight
  cases kind with
  | inherited parent link => exact .pure ⟨l, rfl, h.seeks, fun hd => h.straight (.inherited hk hd)⟩
  | idHierarchy =>
    rw [reduceKind, reduceIdHierarchy, h.seeks.op_eq]
    exact .fail trivial
  | joinedPath comodel rest =>
    -- Rows are compared with a field itself, so a leaf that asks for rows has no rest of a path to follow.
    refine .pure ⟨_, rfl, ?_, fun hd => h.straight (.joined hk hd)⟩
    have hseeks := h.seeks
    cases hseeks with
    | value hempty => exact .value hempty
    | rows _ hdotless =>
      rcases rest_of_classify hk hdotless with hk | ⟨_, _, hk⟩ | ⟨_, hk⟩ | ⟨_, hk⟩ <;> cases hk
  | linesPath f comodel rest => exact reduceLines_hopeless hbuild hk h
  | path f comodel rest => exact reducePath_hopeless hb hk h.seeks
  | computed f => exact absurd (.computed hk) h.straight
  | one2many f comodel => exact reduceOne2many_hopeless hk h (listed rfl)
  | many2many f comodel => exact reduceMany2many_hopeless h.seeks (listed rfl)
  | many2one comodel => exact reduceMany2one_hopeless h.seeks (listed rfl)
  | attachment f => exact absurd (.attachment hk) h.straight
  | datetime =>
    have hwiden : widenDate? l = none := by
      have hlist := listed rfl
      have hseeks := h.seeks
      cases hseeks with
      | value hempty =>
        cases eq_nil_of_isEmptySet hempty hlist
        rfl
      | rows _ _ => rfl
    rw [reduceKind, hwiden]
    exact emitLeaf_hopeless h.seeks (listed rfl)
  | translatable =>
    rw [reduceKind]
    split
    · refine .bind (P := FindsNothing db) (.ofExcept (fun c hc => ?_) fun _ _ => trivial) fun c hc => .pure hc
      rename_i htruthy
      have hlist := listed rfl
      have hseeks := h.seeks
      cases hseeks with
      | value hempty =>
        cases eq_nil_of_isEmptySet hempty hlist
        cases htruthy
      | rows _ _ => cases hc
    · exact emitLeaf_hopeless h.seeks (listed rfl)
  | plain => exact emitLeaf_hopeless h.seeks (listed rfl)

theorem reduce_hopeless (hbuild : BuildsNothing db s.registry build) (hb : s.backend.KnowsFalse)
    (h : Hopeless db s.registry (l, p)) :
    (reduce s build l p).Meets (StepHopeless db s.registry) (fun _ => True) := by
  unfold reduce
  rw [h.seeks.op_eq]
  exact .bind (P := (classify s.registry p.model l = .ok ·)) (.ofExcept (fun _ hk => hk) fun _ _ => trivial)
    fun kind hk => reduceKind_hopeless hbuild hb hk h

/-! ### Domains -/

/-- Where a tree is vain, its condition finds nothing. -/
def TreeFindsNothing (db : Database V) (s : Setting) (build : QueryBuilder) (depth : Nat) (t : Tree) : Prop :=
  ∀ {q q' tr tr' c}, treeOutcome s build depth t q tr = ((.ok c, q'), tr') → FindsNothing db c

theorem vain_of_leaf {depth : Nat} {P : Leaf × Place → Prop}
    (hleaf : ∀ x, P x → TreeFindsNothing db s build depth (.leaf x)) {t : Tree} (h : t.Vain P) :
    TreeFindsNothing db s build depth t := by
  induction h with
  | const =>
    intro q q' tr tr' c hc
    cases hc
    exact literal_findsNothing
  | leaf ha => exact hleaf _ ha
  | left b _ ih =>
    intro q q' tr tr' c hc row
    rw [treeOutcome_and] at hc
    obtain ⟨a, b, q₁, tr₁, -, hleft, rfl⟩ := combined_ok hc
    rw [Cond.truth, Truth.holds_and, ih hleft row, Bool.false_and]
  | right a _ ih =>
    intro q q' tr tr' c hc row
    rw [treeOutcome_and] at hc
    obtain ⟨a, b, q₁, tr₁, hright, -, rfl⟩ := combined_ok hc
    rw [Cond.truth, Truth.holds_and, ih hright row, Bool.and_false]
  | both _ _ iha ihb =>
    intro q q' tr tr' c hc row
    rw [treeOutcome_or] at hc
    obtain ⟨a, b, q₁, tr₁, hright, hleft, rfl⟩ := combined_ok hc
    rw [Cond.truth, Truth.holds_or, iha hleft row, ihb hright row]
    rfl

/-- The condition of a vain tree finds nothing, by induction on the replacements in the stead of a leaf. -/
theorem vain_findsNothing (hbuild : BuildsNothing db s.registry build) (hb : s.backend.KnowsFalse) (depth : Nat)
    {t : Tree} (h : t.Vain (Hopeless db s.registry)) : TreeFindsNothing db s build depth t := by
  induction depth generalizing t with
  | zero =>
    refine vain_of_leaf (fun x _ q q' tr tr' c hc => ?_) h
    cases hc
  | succ depth ih =>
    refine vain_of_leaf (fun x hx q q' tr tr' c hc => ?_) h
    obtain ⟨step, tr₁, hreduce, hstep⟩ := treeOutcome_leaf_ok hc
    have hopeless := (reduce_hopeless hbuild hb hx).gives hreduce
    rcases hstep with ⟨rfl, -⟩ | ⟨items, rfl, htree⟩ | ⟨join, item, rfl, htree⟩
    · exact hopeless
    · obtain ⟨t', ht', hvain⟩ := hopeless
      exact ih hvain (htree t' ht')
    · obtain ⟨token, place⟩ := item
      obtain ⟨l', rfl, hl'⟩ := hopeless
      exact ih (.leaf hl') (htree _ (.leaf l' place))

theorem compileOn_vain (hbuild : BuildsNothing db s.registry build) (hb : s.backend.KnowsFalse) {fuel : Nat}
    {d : Domain} {t : Term Leaf} (ht : Domain.distributeNot d = .ok t.spell)
    (hvain : t.Vain fun l => Hopeless db s.registry (l, p)) {q q' : Query} {tr tr' : Trace} {c : Cond}
    (h : (Compiler.compileOn s build fuel p d q).run tr = ((.ok c, q'), tr')) : FindsNothing db c := by
  have hfin : Finished ((Compiler.compileOn s build fuel p d q).run tr) := h ▸ nofun
  rw [compileOn_eq_domain (Nat.le_refl fuel) p d q tr hfin, domain_eq_term ht] at h
  exact vain_findsNothing hbuild hb fuel (hvain.map fun _ hl => hl) h

end

/-! ### Queries -/

theorem allOf_leaf (l : Leaf) {d : Domain} {ts : List (Term Leaf)} (hts : Domain.terms? d = some ts) (hne : d ≠ [])
    (halways : d ≠ Domain.always) :
    Domain.allOf [[.leaf l], d] = .ok (if d.isNever then d else (Term.and (.leaf l) (Term.conj ts)).spell) := by
  have hsome : Domain.isAlways d = false := by
    unfold Domain.isAlways
    split
    · exact absurd rfl halways
    · rfl
  have hempty : d.isEmpty = false := by simpa using hne
  have hleaf : Domain.normalize [.leaf l] = .ok [.leaf l] := Domain.normalize_spell (.leaf l)
  have hfirst : Domain.isAlways [.leaf l] = false ∧ Domain.isNever [.leaf l] = false := ⟨rfl, rfl⟩
  unfold Domain.allOf Domain.members Domain.members Domain.members
  simp only [hfirst, hsome, hleaf, hempty, Domain.normalize_of_terms? hts, Bool.false_eq_true, if_false, List.isEmpty_cons]
  cases hnever : Domain.isNever d with
  | true =>
    unfold Domain.isNever at hnever
    split at hnever
    · rfl
    · cases hnever
  | false => simp [Domain.joined, Term.spell]

/-- That records are in use is asked beside the domain, unless the domain decides by itself. -/
theorem withActive_terms {r : Registry} {ctx : Context} {m : Model} {d d' : Domain} {ts : List (Term Leaf)}
    (h : withActive r ctx m d = .ok d') (hts : Domain.terms? d = some ts) (hne : d ≠ []) (halways : d ≠ Domain.always) :
    d' = d ∨ ∃ l, Domain.terms? d' = some [.and (.leaf l) (Term.conj ts)] := by
  rcases withActive_eq_ok h with rfl | ⟨active, -, hall⟩
  · exact .inl rfl
  · rw [Domain.ofLeaf, allOf_leaf _ hts hne halways] at hall
    cases hall
    split
    · exact .inl rfl
    · exact .inr ⟨_, Domain.terms?_spell _⟩

section
variable {V : Type} {db : Database V} {c : Compiler}

/-- A domain of a vain term has a query that finds nothing. -/
theorem queryIn_vain (hb : c.backend.KnowsFalse) {fuel : Nat} (hbuild : BuildsNothing db c.registry (c.queryIn fuel))
    {ctx : Context} {model : String} {m : Model} (hm : c.registry.model model = .ok m) {d : Domain}
    {ts : List (Term Leaf)} (hts : Domain.terms? d = some ts)
    (hvain : ((Term.conj ts).inward false).Vain fun l => Hopeless db c.registry (l, ⟨m, m.table⟩)) {q : Query}
    (h : Builds (c.queryIn (fuel + 1)) ctx model d q) : QueryFindsNothing db q := by
  have hne : d ≠ [] := by
    rintro rfl
    cases hts
    cases hvain
  have halways : d ≠ Domain.always := by
    rintro rfl
    cases hts
    cases hvain
  obtain ⟨t, t', h⟩ := h
  obtain ⟨m', d', hm', hactive, ⟨rfl, -⟩ | ⟨-, cond, q', tr', hon, rfl⟩⟩ := queryIn_gives h
  · rcases withActive_terms hactive hts hne halways with heq | ⟨l, hterms⟩
    · exact absurd heq.symm hne
    · cases hterms
  · cases hm.symm.trans hm'
    -- Asking for records in use beside the domain leaves it vain: one side of a conjunction is enough.
    have hcond : FindsNothing db cond := by
      rcases withActive_terms hactive hts hne halways with rfl | ⟨l, hterms⟩
      · exact compileOn_vain hbuild hb (Domain.distributeNot_of_terms? hts) hvain hon
      · exact compileOn_vain hbuild hb (Domain.distributeNot_of_terms? hterms) (.right _ hvain) hon
    have hq := compileOn_extends hon
    refine ⟨?_, hq.window⟩
    have hconditions : q'.conditions = [] := hq.conditions
    rw [Query.condition, Query.addCondition, hconditions]
    exact hcond

theorem queryIn_buildsNothing (hr : c.registry.Built) (hb : c.backend.KnowsFalse) (fuel : Nat) :
    BuildsNothing db c.registry (c.queryIn fuel) := by
  induction fuel with
  | zero =>
    rintro ctx m l q - - - ⟨t, t', h⟩
    cases h
  | succ fuel ih =>
    intro ctx m l q hm hl hd h
    have hterms : Domain.terms? [.leaf l] = some [.leaf l] := rfl
    exact queryIn_vain hb ih (hr.model_eq hm) hterms (.leaf ⟨hl, hd⟩) h

end

/-- Where a search is over because its domain is false by itself, and none of the leaves with an empty set diverges,
    the query of the domain finds no row of any tables either. -/
theorem query_of_search_nothing (c : Compiler) (hr : c.registry.Built) (hb : c.backend.KnowsFalse) {model : String}
    {m : Model} (hm : c.registry.model model = .ok m) {d e : Domain} (he : Domain.distributeNot d = .ok e)
    (hstraight : ∀ l ∈ e.leaves, l.verdict = .never → ¬Diverges c.registry m l) {fuel : Nat} {t t' : Trace}
    (hsearch : (c.search fuel model d).Gives t .nothing t') {fuel' : Nat} {q : Query} {u u' : Trace}
    (hq : (c.query fuel' model d).Gives u q u') :
    ∀ {V : Type} (db : Database V) (row : Row V), (q.condition.truth db.engine row).holds = false := by
  intro V db
  have hfalse : d.isFalse = .ok true := by
    cases (findWith_meets (s := c.setting c.context) (l := ⟨"", .eq, .value .null⟩) (p := ⟨m, ""⟩) _ _ _).gives hsearch
    assumption
  obtain ⟨ts, hts, hnever⟩ := Domain.isFalse_eq_true hfalse
  rw [Domain.distributeNot_of_terms? hts] at he
  cases he
  rw [Term.leaves_spell] at hstraight
  have hverdict : ((Term.conj ts).inward false).verdict = .never := (Domain.verdict_inward _ false).trans hnever
  have hvain := Domain.vainIfNever_inward (P := fun l => Hopeless db c.registry (l, ⟨m, m.table⟩)) (Term.conj ts) false
    hverdict fun l hl hv => by
      obtain ⟨hop, hempty⟩ := Leaf.verdict_eq_never.mp hv
      refine ⟨?_, hstraight l hl hv⟩
      obtain ⟨left, op, right⟩ := l
      cases hop
      cases right with
      | value v => exact .value hempty
      | subquery sub => cases hempty
  cases fuel' with
  | zero => cases hq
  | succ fuel' => exact (queryIn_vain hb (queryIn_buildsNothing hr hb fuel') hm hts hvain ⟨_, _, hq⟩).condition

/-- Tasks that are done and, negated twice, among no ids. -/
theorem query_of_search_nothing_tasks :
    let d : Domain := [.leaf ⟨"done", .eq, .value (.bool true)⟩, .not, .leaf ⟨"id", .notIn, .value (.arr [])⟩]
    let e : Domain := [.and, .leaf ⟨"done", .eq, .value (.bool true)⟩, .leaf ⟨"id", .within, .value (.arr [])⟩]
    taskCompiler.registry.Built ∧ taskCompiler.backend.KnowsFalse ∧ taskCompiler.registry.model "task" = .ok taskModel ∧
      Domain.distributeNot d = .ok e ∧
      (∀ l ∈ e.leaves, l.verdict = .never → ¬Diverges taskCompiler.registry taskModel l) ∧
      ∃ q t', (taskCompiler.search 0 "task" d).Gives {} .nothing {} ∧ (taskCompiler.query 9 "task" d).Gives {} q t' ∧
        ∀ {V : Type} (db : Database V) (row : Row V), (q.condition.truth db.engine row).holds = false := by
  intro d e
  have hb : taskCompiler.backend.KnowsFalse := by
    intro history m d options ids _ h
    cases h
  have hstraight : ∀ l ∈ e.leaves, l.verdict = .never → ¬Diverges taskCompiler.registry taskModel l := by
    intro l hl hv hd
    rcases List.mem_cons.mp hl with rfl | hl
    · cases hv
    · have hleaf := List.mem_singleton.mp hl
      subst hleaf
      have hk : classify taskCompiler.registry taskModel ⟨"id", .within, .value (.arr [])⟩ = .ok .plain := rfl
      cases hd with
      | inherited hk' _ | joined hk' _ | lines hk' _ | linesOwners _ hk' _ | computed hk' | attachment hk' =>
        cases hk.symm.trans hk'
      | owners _ _ hright _ => cases hright
      | unlisted _ _ hright => cases hright
  have hbuilt := valid_tasks.built
  refine ⟨hbuilt, hb, rfl, rfl, hstraight, ?_⟩
  have hsearch : (taskCompiler.search 0 "task" d).Gives {} .nothing {} := rfl
  have hok : ((taskCompiler.query 9 "task" d).run {}).1.isOk := by decide +kernel
  rcases hq : (taskCompiler.query 9 "task" d).run {} with ⟨stop | q, t'⟩ <;> rw [hq] at hok
  · cases hok
  · exact ⟨q, t', hsearch, hq, query_of_search_nothing taskCompiler hbuilt hb rfl rfl hstraight hsearch hq⟩

/-! ### Where the two part -/

/-- Sales have a name and a total without a column. -/
def saleModel : Model :=
  ((Model.ofTable "sale" "sale").withField { name := "name", type := .char }).withField
    { name := "total", type := .float, store := false }

/-- A compiler for sales, without a database. -/
def saleCompiler : Compiler where
  registry := { models := Keyed.empty.insert "sale" saleModel }
  context := { lang := "en_US", unaccent := false, activeTest := false, maxIterations := 10
               attachmentTable := "ir_attachment" }

/-- A search finds no sales whose total is in an empty list, and none whose name is in `false`; but the query of
    the first domain finds every sale, and that of the second one those without a name. -/
theorem search_nothing_of_query :
    let totals : Domain := .ofLeaf "total" .within (.value (.arr []))
    let names : Domain := .ofLeaf "name" .within (.value (.bool false))
    saleCompiler.registry.Valid ∧ (∃ q t', (saleCompiler.search 9 "sale" totals).Gives {} .nothing {} ∧
      (saleCompiler.query 9 "sale" totals).Gives {} q t' ∧
      ∀ {V : Type} (db : Database V) (row : Row V), (q.condition.truth db.engine row).holds = true) ∧
    ∃ q t', (saleCompiler.search 9 "sale" names).Gives {} .nothing {} ∧
      (saleCompiler.query 9 "sale" names).Gives {} q t' ∧
      ∀ {V : Type} (db : Database V) (row : Row V), row ⟨"sale", "name"⟩ = none →
        (q.condition.truth db.engine row).holds = true := by
  refine ⟨⟨.register (m := saleModel) .empty rfl, rfl⟩, ⟨_, _, rfl, rfl, fun db row => rfl⟩,
    ⟨_, _, rfl, rfl, fun db row hrow => ?_⟩⟩
  show (Truth.ofBool (row ⟨"sale", "name"⟩).isNone).holds = true
  rw [hrow]
  rfl

end Compile
end RecordFilter
