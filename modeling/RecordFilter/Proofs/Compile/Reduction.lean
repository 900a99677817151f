import RecordFilter.Compile.Reduce
import RecordFilter.Proofs.Compile.Runs

/-! All that the reduction of a leaf can do. `Reduces` lists what a leaf can become, kind by kind, and
    `Fails` the errors it can end in; `reduce_meets` says that there is nothing else. What holds of every
    step of a compilation is proved from these lists, and no other proof opens `reduce`. -/

namespace RecordFilter.Compile
open Sql

variable {s : Setting} {build : QueryBuilder}

/-! ### Answers from outside -/

/-- The builder gives the query `q` for a domain. -/
def Builds (build : QueryBuilder) (ctx : Context) (model : String) (d : Domain) (q : Query) : Prop :=
  ∃ t t', (build ctx model d).Gives t q t'

/-- What a search for the records of a domain finds. -/
inductive Finds (build : QueryBuilder) (ctx : Context) (model : String) (d : Domain) : Found → Prop
  | nothing : d.isFalse = .ok true → Finds build ctx model d .nothing
  | rows {q : Query} : Builds build ctx model d q → Finds build ctx model d (.rows (inIdOrder q))

/-- The database or a search hook answers with the error. -/
inductive Answers (r : Registry) (b : Backend) (e : Error) : Prop
  | search {history m d options} : b.search history m d options = .error e → Answers r b e
  | names {history m name op options} : b.findByName history m name op options = .error e → Answers r b e
  | references {history m ids field} : b.references history m ids field = .error e → Answers r b e
  | parentPaths {history m ids} : b.parentPaths history m ids = .error e → Answers r b e
  | hook {name hook m op operand} : r.hook? name = some hook → hook m op operand = .error e → Answers r b e

/-- The errors that a reduction of `l` at `p` can end in. -/
inductive Fails (s : Setting) (build : QueryBuilder) (l : Leaf) (p : Place) : Stop → Prop
  | answer {e} : Answers s.registry s.backend e → Fails s build l p (.error e)
  | build {ctx model d t e t'} : (build ctx model d).Stops t e t' → Fails s build l p e
  | classify {e} : classify s.registry p.model l = .error e → Fails s build l p (.error e)
  | leaf (fault) : Fails s build l p (.error (.invalidLeaf l.text fault))
  | plain {e} : plainCondition l p s.context = .error e → Fails s build l p (.error e)
  | translated {e} : translatedCondition l p s.context = .error e → Fails s build l p (.error e)
  | distribute {d e} : Domain.distributeNot d = .error e → Fails s build l p (.error e)
  | isFalse {d : Domain} {e} : d.isFalse = .error e → Fails s build l p (.error e)
  | paths {paths e} : pathDomain paths = .error e → Fails s build l p (.error e)
  | badPath (model id path) : Fails s build l p (.error (.backend (.badParentPath model id path)))
  | limit (m : Model) : Fails s build l p (.error (.hierarchyLimit m.name s.context.maxIterations))
  | inverseName {f e} : inverseName p.model f = .error e → Fails s build l p (.error e)
  | inverseField {f comodel e} : inverseField p.model f comodel = .error e → Fails s build l p (.error e)
  | comodel {f e} : s.registry.comodel f = .error e → Fails s build l p (.error e)
  | relation {f comodel} : Compile.classify s.registry p.model l = .ok (.many2many f comodel) → f.relation = none →
      Fails s build l p (.error (.schema (.noRelation p.model.name f.name)))
  | unstoredInverse (model field inverse) :
      Fails s build l p (.error (.unsupported (.unstoredInverse model field inverse)))

/-! ### Results -/

/-- The domains of a hierarchy on the records themselves: by their paths, or by their ids. -/
inductive OwnHierarchy : Domain → Prop
  | never : OwnHierarchy .never
  | paths {paths d} : pathDomain paths = .ok d → OwnHierarchy d
  | ids (ids) : OwnHierarchy (.ofLeaf "id" .within (.value (.ofIds ids)))

/-- The domains of a hierarchy on a model: its own, or a leaf on the field that leads to its records. -/
inductive HierarchyOf (s : Setting) (build : QueryBuilder) (m : Model) : Target → Domain → Prop
  | never (target) : HierarchyOf s build m target .never
  | own {d} : OwnHierarchy d → HierarchyOf s build m .ids d
  | via {d field found} : OwnHierarchy d → Finds build s.context m.name d found →
      HierarchyOf s build m (.via field) (.ofLeaf field .within found.operand)

/-- The operands that stand for the records at the end of a path. -/
inductive PathOperand (s : Setting) (build : QueryBuilder) (comodel : Model) (d : Domain) : Operand → Prop
  | found {ctx found} : ctx = s.context ∨ ctx = { s.context with activeTest := false } →
      Finds build ctx comodel.name d found → PathOperand s build comodel d found.operand
  | lines (ids) : PathOperand s build comodel d (.value (.ofIds ids))

/-- The operands that a search hook is asked about: that of the leaf, or what the rest of a path leads to. -/
inductive HookOperand (s : Setting) (build : QueryBuilder) (l : Leaf) (f : Field) : Operator → Operand → Prop
  | own : l.path.2 = none → HookOperand s build l f l.op l.right
  | rest {rest comodel found} : l.path.2 = some rest → s.registry.comodel f = .ok comodel →
      Finds build s.context comodel.name (.ofLeaf rest l.op l.right) found →
      HookOperand s build l f .within found.operand

/-- The records that a leaf on a relation names. -/
inductive Names (l : Leaf) : Related → Prop
  | ids (ids) : Names l (.ids ids)
  | operand {sub} : l.right = .subquery sub → Names l (.rows sub)

/-- The operands that stand for the owners of the lines of a one2many field. -/
inductive Owners (l : Leaf) (comodel : Model) (inverse : Field) : Operand → Prop
  | all : Owners l comodel inverse (.subquery (.references comodel.table inverse.name))
  | ids (ids) : Owners l comodel inverse (.subquery (.owners comodel.table inverse.name (.ofIds ids)))
  | operand {sub} : l.right = .subquery sub →
      Owners l comodel inverse (.subquery (.owners comodel.table inverse.name (.select sub)))
  | read (ids) : Owners l comodel inverse (.value (.ofIds ids))

/-- The hierarchies that a leaf follows: those of its own records, or those of the records it refers to. -/
inductive Follows (s : Setting) (l : Leaf) (p : Place) : Model → Target → Prop
  | id : classify s.registry p.model l = .ok .idHierarchy → Follows s l p p.model .ids
  | parent {comodel} : classify s.registry p.model l = .ok (.many2one comodel) → Follows s l p p.model .ids
  | reference {comodel} : classify s.registry p.model l = .ok (.many2one comodel) →
      Follows s l p comodel (.via l.path.1)
  | children {f comodel} : classify s.registry p.model l = .ok (.one2many f comodel) → Follows s l p p.model .ids
  | lines {f comodel} : classify s.registry p.model l = .ok (.one2many f comodel) →
      Follows s l p comodel (.via f.name)

/-- What a leaf at a place can become. -/
inductive Reduces (s : Setting) (build : QueryBuilder) (l : Leaf) (p : Place) : Step → Prop
  | holds : Reduces s build l p (.emit (.literal true))
  | equal : l.op = .eqIfSet → Reduces s build l p (.leaf { l with op := .eq } p)
  | inherited {parent link} : classify s.registry p.model l = .ok (.inherited parent link) →
      Reduces s build l p (.followTo l p link parent)
  | joined {comodel rest} : classify s.registry p.model l = .ok (.joinedPath comodel rest) →
      Reduces s build l p (.followTo { l with left := rest } p l.path.1 comodel)
  | lines {f comodel rest inverse q} : classify s.registry p.model l = .ok (.linesPath f comodel rest) →
      inverseName p.model f = .ok inverse →
      Builds build s.context comodel.name (.ofLeaf rest l.op l.right) q →
      Reduces s build l p (.leaf ⟨"id", .within, .subquery (q.subselect (.column ⟨q.tableAlias, inverse⟩))⟩ p)
  | path {f comodel rest operand} : classify s.registry p.model l = .ok (.path f comodel rest) →
      PathOperand s build comodel (.ofLeaf rest l.op l.right) operand →
      Reduces s build l p (.leaf ⟨l.path.1, .within, operand⟩ p)
  | hook {f name hook op operand d e} : classify s.registry p.model l = .ok (.computed f) →
      s.registry.hook? name = some hook → HookOperand s build l f op operand →
      hook p.model op operand = .ok d → Domain.distributeNot d = .ok e →
      Reduces s build l p (.requeue (Work.ofDomain p e))
  | hierarchy {m target d e} : Follows s l p m target → HierarchyOf s build m target d →
      Domain.distributeNot d = .ok e → Reduces s build l p (.requeue (Work.ofDomain p e))
  | heldLines {f comodel ids e} : classify s.registry p.model l = .ok (.one2many f comodel) →
      Domain.distributeNot (.ofLeaf f.name .within (.value (.ofIds ids))) = .ok e →
      Reduces s build l p (.requeue (Work.ofDomain p e))
  | owners {f comodel inverse op operand} : classify s.registry p.model l = .ok (.one2many f comodel) →
      inverseField p.model f comodel = .ok inverse → op = .within ∨ op = .notIn →
      Owners l comodel inverse operand → Reduces s build l p (.leaf ⟨"id", op, operand⟩ p)
  | noLines (negative) : Reduces s build l p (.emit (.literal negative))
  | relatives {f comodel d found} : classify s.registry p.model l = .ok (.many2many f comodel) → OwnHierarchy d →
      Finds build s.context comodel.name d found → Reduces s build l p (.leaf ⟨"id", .within, found.operand⟩ p)
  | linkedFound {f comodel relation d found} : classify s.registry p.model l = .ok (.many2many f comodel) →
      f.relation = some relation → OwnHierarchy d → Finds build s.context comodel.name d found →
      Reduces s build l p (.emit (linkedTo p f.name relation true (.ofFound found)))
  | linked {f comodel relation related} (positive) :
      classify s.registry p.model l = .ok (.many2many f comodel) → f.relation = some relation → Names l related →
      Reduces s build l p (.emit (linkedTo p f.name relation positive related))
  | anyLink {f comodel relation op} : classify s.registry p.model l = .ok (.many2many f comodel) →
      f.relation = some relation → op = .within ∨ op = .notIn →
      Reduces s build l p (.leaf ⟨"id", op, .subquery (.references relation.table relation.column1)⟩ p)
  | named {comodel} (values) : classify s.registry p.model l = .ok (.many2one comodel) →
      Reduces s build l p (.leaf ⟨l.left, .within, .value (.arr values)⟩ p)
  | attached {f op} : classify s.registry p.model l = .ok (.attachment f) → op = .within ∨ op = .notIn →
      Reduces s build l p
        (.leaf ⟨"id", op, .subquery (.attached s.context.attachmentTable p.model.name f.name)⟩ p)
  | widened {l'} : classify s.registry p.model l = .ok .datetime → widenDate? l = some l' →
      Reduces s build l p (.leaf l' p)
  | plain {c} : plainCondition l p s.context = .ok c → Reduces s build l p (.emit c)
  | translated {c} : classify s.registry p.model l = .ok .translatable →
      translatedCondition l p s.context = .ok c → Reduces s build l p (.emit c)

/-! ### Searches and hierarchies -/

/-- Asking the database about a leaf, no query being built, can stop only for reasons among `E`. -/
structure Admits (s : Setting) (l : Leaf) (E : Stop → Prop) : Prop where
  answer {e} : Answers s.registry s.backend e → E (.error e)
  leaf (fault) : E (.error (.invalidLeaf l.text fault))
  paths {paths e} : pathDomain paths = .error e → E (.error e)
  badPath (model id path) : E (.error (.backend (.badParentPath model id path)))
  limit (m : Model) : E (.error (.hierarchyLimit m.name s.context.maxIterations))

section
variable {l : Leaf} {p : Place} {E : Stop → Prop}

theorem pathIds_error {m : Model} {found : IdSet} {paths : List (Int × String)} {e : Error}
    (h : pathIds m found paths = .error e) : ∃ id path, e = .backend (.badParentPath m.name id path) := by
  induction paths generalizing found with
  | nil => cases h
  | cons entry rest ih =>
    obtain ⟨id, path⟩ := entry
    unfold pathIds at h
    split at h
    · exact ih h
    · exact ⟨id, path, (Except.error.inj h).symm⟩

namespace Admits

theorem lineIds (h : Admits s l E) (comodel : Model) (d : Domain) :
    (lineIds s comodel d).Meets (fun _ => True) E :=
  .search fun _ _ he => h.answer (.search he)

theorem nameSearch (h : Admits s l E) (m : Model) (name : Json) (op : Operator) (options : SearchOptions) :
    (Run.nameSearch s.backend m name op options).Meets (fun _ => True) E :=
  .nameSearch fun _ _ he => h.answer (.names he)

theorem references (h : Admits s l E) (m : Model) (ids : List Int) (field : String) :
    (Run.references s.backend m ids field).Meets (fun _ => True) E :=
  .references fun _ _ he => h.answer (.references he)

theorem parentPaths (h : Admits s l E) (m : Model) (ids : List Int) :
    (Run.parentPaths s.backend m ids).Meets (fun _ => True) E :=
  .parentPaths fun _ _ he => h.answer (.parentPaths he)

theorem idsOfNames (h : Admits s l E) (m : Model) (options : SearchOptions) (names : List String) :
    (idsOfNames s m options names).Meets (fun _ => True) E := by
  induction names with
  | nil => exact .pure trivial
  | cons name rest ih =>
    exact .bind (h.nameSearch m _ _ options) fun _ _ => .bind ih fun _ _ => .pure trivial

theorem rootIds (h : Admits s l E) (m : Model) : (rootIds s l m).Meets (fun _ => True) E := by
  unfold Compile.rootIds
  split
  · exact .fail (h.leaf _)
  · split
    · exact .bind (h.idsOfNames m _ _) fun _ _ => .pure trivial
    · exact .bind (.log _ _) fun _ _ => .pure trivial
    · split
      · split
        · exact .bind (.log _ _) fun _ _ => .pure trivial
        · exact .pure trivial
      · exact .fail (h.leaf _)
    · exact .fail (h.leaf _)
    · split
      · exact .pure trivial
      · exact .fail (h.leaf _)
    · exact .fail (h.leaf _)

theorem walk (h : Admits s l E) (dir : Direction) (m : Model) (parent : String) (rounds : Nat) (visited frontier : IdSet) :
    (walk s dir m parent rounds visited frontier).Meets (fun _ => True) E := by
  induction rounds generalizing visited frontier with
  | zero =>
    unfold Compile.walk
    split
    · exact .pure trivial
    · exact .fail (h.limit m)
  | succ rounds ih =>
    unfold Compile.walk
    split
    · exact .pure trivial
    · refine .bind (P := fun _ => True) ?_ fun next _ => ih _ _
      cases dir
      · exact .search fun _ _ he => h.answer (.search he)
      · exact h.references m _ parent

theorem hierarchy (h : Admits s l E) (dir : Direction) (ids : List Int) (m : Model) (parent : Option String) :
    (hierarchy s dir ids m parent).Meets OwnHierarchy E := by
  have byPaths : ∀ {paths : List (Int × String)},
      (Run.ofExcept (pathDomain paths)).Meets OwnHierarchy E :=
    .ofExcept (fun _ hd => .paths hd) fun _ he => h.paths he
  unfold Compile.hierarchy
  dsimp only
  split
  · cases dir with
    | descendants =>
      exact .bind (h.parentPaths m ids) fun paths _ => .bind (.log _ _) fun _ _ => byPaths
    | ancestors =>
      refine .bind (h.parentPaths m ids) fun paths _ => .bind (P := fun _ => True) ?_ fun found _ =>
        .bind (.log _ _) fun _ _ => .pure (.ids _)
      refine .ofExcept (fun _ _ => trivial) fun e he => ?_
      obtain ⟨id, path, rfl⟩ := pathIds_error he
      exact h.badPath _ _ _
  · exact .bind (h.walk dir m _ _ _ _) fun found _ => .bind (.log _ _) fun _ _ => .pure (.ids _)

theorem relatedOf (h : Admits s l E) (comodel : Model) : (relatedOf s l comodel).Meets (Names l) E := by
  unfold Compile.relatedOf
  split
  · rename_i sub hsub
    exact .pure (.operand hsub)
  · split
    · exact .bind (h.nameSearch comodel _ _ _) fun ids _ => .pure (.ids ids)
    · split
      · exact .pure (.ids _)
      · exact .fail (h.leaf _)
    · exact .fail (h.leaf _)
    · split
      · exact .pure (.ids _)
      · exact .fail (h.leaf _)
    · exact .fail (h.leaf _)

end Admits

theorem fails_admits : Admits s l (Fails s build l p) where
  answer := .answer
  leaf := .leaf
  paths := .paths
  badPath := .badPath
  limit := .limit

theorem build_meets (ctx : Context) (model : String) (d : Domain) :
    (build ctx model d).Meets (Builds build ctx model d) (Fails s build l p) where
  gives h := ⟨_, _, h⟩
  stops h := .build h

theorem findWith_meets (ctx : Context) (model : String) (d : Domain) :
    (findWith build ctx model d).Meets (Finds build ctx model d) (Fails s build l p) := by
  unfold findWith
  refine .bind (P := (d.isFalse = .ok ·)) (.ofExcept (fun _ h => h) fun _ h => .isFalse h) fun b hb => ?_
  cases b
  · exact .bind (build_meets ctx model d) fun q hq => .pure (.rows hq)
  · exact .pure (.nothing hb)

theorem hierarchyDomain_meets (dir : Direction) (ids : List Int) (m : Model) (parent : Option String)
    (target : Target) :
    (hierarchyDomain s build dir ids m parent target).Meets (HierarchyOf s build m target) (Fails s build l p) := by
  unfold hierarchyDomain
  split
  · exact .pure (.never target)
  · refine .bind (fails_admits.hierarchy dir ids m parent) fun d hd => ?_
    cases target with
    | ids => exact .pure (.own hd)
    | via field => exact .bind (findWith_meets _ _ d) fun found hf => .pure (.via hd hf)

theorem HierarchyOf.toOwn {m : Model} {d : Domain} (h : HierarchyOf s build m .ids d) : OwnHierarchy d := by
  cases h with
  | never => exact .never
  | own h => exact h

/-! ### Leaves of each kind -/

/-- A domain in the stead of a leaf is requeued as it is after its negations are distributed. -/
theorem domain_meets (d : Domain) {P : Step → Prop}
    (h : ∀ e, Domain.distributeNot d = .ok e → P (.requeue (Work.ofDomain p e))) :
    (Step.domain d p).Meets P (Fails s build l p) :=
  .bind (.ofExcept (P := (Domain.distributeNot d = .ok ·)) (fun _ h => h) fun _ h => .distribute h) fun e he =>
    .pure (h e he)

theorem hierarchyStep_meets {m : Model} {target : Target} (hf : Follows s l p m target) (dir : Direction)
    (ids : List Int) (parent : Option String) :
    (hierarchyDomain s build dir ids m parent target >>= (Step.domain · p)).Meets
      (Reduces s build l p) (Fails s build l p) :=
  .bind (hierarchyDomain_meets dir ids m parent target) fun d hd => domain_meets d fun _ he => .hierarchy hf hd he

theorem emitLeaf_meets : (emitLeaf s l p).Meets (Reduces s build l p) (Fails s build l p) := by
  unfold emitLeaf
  refine .bind (.ofExcept (P := (plainCondition l p s.context = .ok ·)) (fun _ h => h) fun _ h => .plain h)
    fun c hc => ?_
  have emit : (pure (Step.emit c) : Run Step).Meets (Reduces s build l p) (Fails s build l p) := .pure (.plain hc)
  cases leafNotice? l with
  | none => exact emit
  | some notice => exact .bind (.log _ _) fun _ _ => emit

theorem reducePath_meets {f : Field} {comodel : Model} {rest : String}
    (hk : classify s.registry p.model l = .ok (.path f comodel rest)) :
    (reducePath s build l l.path.1 rest p f comodel).Meets (Reduces s build l p) (Fails s build l p) := by
  have found : ∀ ctx, ctx = s.context ∨ ctx = { s.context with activeTest := false } →
      (findWith build ctx comodel.name (.ofLeaf rest l.op l.right) >>= fun x => pure x.operand : Run Operand).Meets
        (PathOperand s build comodel (.ofLeaf rest l.op l.right)) (Fails s build l p) := fun ctx hctx =>
    .bind (findWith_meets ctx _ _) fun _ hf => .pure (.found hctx hf)
  refine .bind (P := PathOperand s build comodel (.ofLeaf rest l.op l.right)) ?_ fun operand h => .pure (.path hk h)
  unfold reducePath.target
  split
  · exact found _ (Or.inr rfl)
  · refine .bind (P := fun _ => True) (.ofExcept (fun _ _ => trivial) fun _ h => .inverseName h) fun name _ => ?_
    split
    · exact .bind (fails_admits.lineIds comodel _) fun ids _ => .pure (.lines ids)
    · exact found _ (Or.inl rfl)
  · exact found _ (Or.inl rfl)

theorem reduceComputed_meets {f : Field} (hk : classify s.registry p.model l = .ok (.computed f)) :
    (reduceComputed s build l p f).Meets (Reduces s build l p) (Fails s build l p) := by
  -- Asking a hook about an operand that it may be asked about.
  have ask : ∀ {name hook op operand}, s.registry.hook? name = some hook → HookOperand s build l f op operand →
      (Run.callHook name hook p.model op operand >>= (Step.domain · p)).Meets
        (Reduces s build l p) (Fails s build l p) := fun hhook hop =>
    .bind (.callHook (fun _ h => h) fun _ h => .answer (.hook hhook h)) fun d hd =>
      domain_meets d fun _ he => .hook hk hhook hop hd he
  unfold reduceComputed
  split
  · exact .bind (.log _ _) fun _ _ => .pure .holds
  · split
    · exact .bind (.log _ _) fun _ _ => .pure .holds
    · rename_i name hook hhook
      split
      · rename_i hrest
        exact ask hhook (.own hrest)
      · rename_i rest hrest
        refine .bind (.ofExcept (P := (s.registry.comodel f = .ok ·)) (fun _ h => h) fun _ h => .comodel h)
          fun comodel hc => ?_
        exact .bind (findWith_meets _ _ _) fun found hf => ask hhook (.rest hrest hc hf)

theorem reduceAttachment_meets {f : Field} (hk : classify s.registry p.model l = .ok (.attachment f)) :
    (reduceAttachment s l p f).Meets (Reduces s build l p) (Fails s build l p) := by
  unfold reduceAttachment
  dsimp only
  split
  · exact .pure (.attached hk (Or.inr rfl))
  · exact .pure (.attached hk (Or.inl rfl))
  · exact .bind (.log _ _) fun _ _ => .pure .holds

theorem reduceMany2one_meets {comodel : Model} (hk : classify s.registry p.model l = .ok (.many2one comodel)) :
    (reduceMany2one s build l l.path.1 p comodel).Meets (Reduces s build l p) (Fails s build l p) := by
  unfold reduceMany2one
  split
  · refine .bind (fails_admits.rootIds comodel) fun ids _ => ?_
    split
    · exact hierarchyStep_meets (.parent hk) _ _ _
    · exact hierarchyStep_meets (.reference hk) _ _ _
  · split
    · split
      · refine .bind (P := fun leaf => ∃ values, leaf = ⟨l.left, .within, .value (.arr values)⟩) ?_
          fun leaf ⟨values, hleaf⟩ => .pure (hleaf ▸ .named values hk)
        exact .bind (fails_admits.nameSearch comodel _ _ _) fun ids _ => .pure ⟨_, rfl⟩
      · exact emitLeaf_meets
    · exact emitLeaf_meets

theorem reduceIdHierarchy_meets (hk : classify s.registry p.model l = .ok .idHierarchy) :
    (reduceIdHierarchy s build l p).Meets (Reduces s build l p) (Fails s build l p) := by
  unfold reduceIdHierarchy
  split
  · exact .bind (fails_admits.rootIds _) fun ids _ => hierarchyStep_meets (.id hk) _ _ _
  · exact .fail (.leaf _)

/-- Both polarities of a leaf on ids ask for membership. -/
theorem membership (b : Bool) :
    ((if b then Operator.within else .notIn) = .within ∨ (if b then Operator.within else .notIn) = .notIn) ∧
      ((if b then Operator.notIn else .within) = .within ∨ (if b then Operator.notIn else .within) = .notIn) := by
  cases b <;> simp

theorem reduceOne2many_meets {f : Field} {comodel : Model}
    (hk : classify s.registry p.model l = .ok (.one2many f comodel)) :
    (reduceOne2many s build l p f comodel).Meets (Reduces s build l p) (Fails s build l p) := by
  unfold reduceOne2many
  refine .bind (.ofExcept (P := (inverseField p.model f comodel = .ok ·)) (fun _ h => h) fun _ h => .inverseField h)
    fun inverse hi => ?_
  dsimp only
  split
  · unfold one2manyHierarchy
    refine .bind (fails_admits.rootIds comodel) fun ids _ => ?_
    split
    · exact hierarchyStep_meets (.children hk) _ _ _
    · split
      · exact hierarchyStep_meets (.lines hk) _ _ _
      · refine .bind (hierarchyDomain_meets _ _ _ _ _) fun d _ => .bind (fails_admits.lineIds comodel d) fun lines _ => ?_
        exact domain_meets _ fun _ he => .heldLines hk he
  · split
    · refine .bind (P := Owners l comodel inverse) ?_ fun owners ho => .pure (.owners hk hi (membership _).1 ho)
      unfold allOwners
      split
      · exact .pure .all
      · exact .bind (fails_admits.lineIds comodel _) fun lines _ => .bind (fails_admits.references comodel _ _) fun ids _ =>
          .pure (.read ids)
    · refine .bind (fails_admits.relatedOf comodel) fun related hr => ?_
      split
      · exact .pure (.noLines _)
      · exact .pure (.owners hk hi (membership _).2 (.ids _))
      · cases hr with
        | operand hsub => exact .pure (.owners hk hi (membership _).2 (.operand hsub))
      · exact .bind (fails_admits.references comodel _ _) fun ids _ => .pure (.owners hk hi (membership _).2 (.read ids))
      · exact .fail (.unstoredInverse _ _ _)

theorem reduceMany2many_meets {f : Field} {comodel : Model}
    (hk : classify s.registry p.model l = .ok (.many2many f comodel)) :
    (reduceMany2many s build l p f comodel).Meets (Reduces s build l p) (Fails s build l p) := by
  unfold reduceMany2many
  split
  · rename_i hrel
    exact .fail (.relation hk hrel)
  · rename_i relation hrel
    dsimp only
    split
    · unfold many2manyHierarchy
      refine .bind (fails_admits.rootIds comodel) fun ids _ => .bind (hierarchyDomain_meets _ _ _ _ _) fun d hd =>
        .bind (findWith_meets _ _ _) fun found hf => ?_
      split
      · exact .pure (.relatives hk hd.toOwn hf)
      · exact .pure (.linkedFound hk hrel hd.toOwn hf)
    · split
      · exact .pure (.anyLink hk hrel (membership _).1)
      · exact .bind (fails_admits.relatedOf comodel) fun related hr => .pure (.linked _ hk hrel hr)

theorem reduceKind_meets {kind : FieldKind} (hk : classify s.registry p.model l = .ok kind) :
    (reduceKind s build l p kind).Meets (Reduces s build l p) (Fails s build l p) := by
  cases kind with
  | inherited parent link => exact .pure (.inherited hk)
  | idHierarchy => exact reduceIdHierarchy_meets hk
  | joinedPath comodel rest => exact .pure (.joined hk)
  | linesPath f comodel rest =>
    refine .bind (.ofExcept (P := (inverseName p.model f = .ok ·)) (fun _ h => h) fun _ h => .inverseName h)
      fun inverse hi => ?_
    exact .bind (build_meets _ _ _) fun q hq => .pure (.lines hk hi hq)
  | path f comodel rest => exact reducePath_meets hk
  | computed f => exact reduceComputed_meets hk
  | one2many f comodel => exact reduceOne2many_meets hk
  | many2many f comodel => exact reduceMany2many_meets hk
  | many2one comodel => exact reduceMany2one_meets hk
  | attachment f => exact reduceAttachment_meets hk
  | datetime =>
    rw [reduceKind]
    split
    · rename_i l' hl'
      exact .pure (.widened hk hl')
    · exact emitLeaf_meets
  | translatable =>
    rw [reduceKind]
    split
    · refine .bind (.ofExcept (P := (translatedCondition l p s.context = .ok ·)) (fun _ h => h) fun _ h =>
        .translated h) fun c hc => .pure (.translated hk hc)
    · exact emitLeaf_meets
  | plain => exact emitLeaf_meets

/-- A leaf becomes what `Reduces` lists, or the reduction ends in one of the errors of `Fails`. -/
theorem reduce_meets : (reduce s build l p).Meets (Reduces s build l p) (Fails s build l p) := by
  unfold reduce
  split
  · rename_i hop
    split
    · exact .pure .holds
    · exact .pure (.equal hop)
  · exact .bind (.ofExcept (P := (classify s.registry p.model l = .ok ·)) (fun _ h => h) fun _ h => .classify h)
      fun kind hk => reduceKind_meets hk

end

/-! ### Times -/

section
variable {l : Leaf}

theorem widenDate?_eq_some {w : Leaf} (h : widenDate? l = some w) :
    ∃ date time, l.right = .value (.str date) ∧ date.utf8ByteSize = 10 ∧
      w = { l with right := .value (.str (date ++ " " ++ time)) } := by
  unfold widenDate? at h
  split at h
  · rename_i date hright
    split at h
    · rename_i hdate
      unfold Date.isDateText at hdate
      rw [Bool.and_eq_true, decide_eq_true_iff] at hdate
      exact ⟨date, _, hright, hdate.1, (Option.some.inj h).symm⟩
    · cases h
  · cases h

theorem widenDate?_widened {w : Leaf} (h : widenDate? l = some w) : widenDate? w = none := by
  obtain ⟨date, time, -, hsize, rfl⟩ := widenDate?_eq_some h
  have hlong : (date ++ " " ++ time).utf8ByteSize ≠ 10 := by
    rw [String.utf8ByteSize_append, String.utf8ByteSize_append, hsize]
    have : " ".utf8ByteSize = 1 := rfl
    omega
  have hdate : Date.isDateText (date ++ " " ++ time) = false := by
    unfold Date.isDateText
    rw [decide_eq_false hlong, Bool.false_and]
  unfold widenDate?
  dsimp only
  rw [hdate]
  rfl

end

end RecordFilter.Compile
