import RecordFilter.Proofs.Compile.Kinds
import RecordFilter.Proofs.Compile.Operands

/-! Leaves that ask for descendants or ancestors. On a relation or an id, such a leaf becomes conditions on the ids or the
    paths of records; past a join it goes on as it is; a column of its own it is never compared with, and where there
    is one the leaf is rejected. -/

namespace RecordFilter
open Sql

theorem Operator.eq_of_isHierarchy {op : Operator} (h : op.isHierarchy) : op = .childOf ∨ op = .parentOf := by
  cases op <;> first | exact .inl rfl | exact .inr rfl | cases h

namespace Compile

/-- A condition on records: the record itself, or the one that it refers to by the field `head`, is among some with
    known ids or among those of a subquery; or its path starts like another. -/
inductive OnRecords (head : String) : Leaf → Prop
  | ids {left} (ids : List Int) : left = "id" ∨ left = head → OnRecords head ⟨left, .within, .value (.ofIds ids)⟩
  | rows {left} (sub) : left = "id" ∨ left = head → OnRecords head ⟨left, .within, .subquery sub⟩
  | path (path : String) : OnRecords head ⟨"parent_path", .eqLike, .value (.str (path ++ "%"))⟩

variable {s : Setting} {build : QueryBuilder} {l : Leaf} {p : Place} {head : String}

theorem onRecords_found (found : Found) {left : String} (hleft : left = "id" ∨ left = head) :
    OnRecords head ⟨left, .within, found.operand⟩ := by
  cases found with
  | nothing => exact .ids [] hleft
  | rows q => exact .rows _ hleft

/-! ### Domains of hierarchies -/

theorem OwnHierarchy.onRecords {d : Domain} (h : OwnHierarchy d) : ∀ l' ∈ d.leaves, OnRecords head l' := by
  intro l' hl'
  obtain ⟨path, rfl⟩ | ⟨ids, rfl⟩ := h.leaf_cases hl'
  · exact .path path
  · exact .ids ids (.inl rfl)

/-- There is no negation to move. -/
theorem OwnHierarchy.distributeNot {d : Domain} (h : OwnHierarchy d) : Domain.distributeNot d = .ok d := by
  cases h with
  | never => rfl
  | @paths paths _ hd =>
    have hany := Domain.anyOf_leaves
      (paths.map fun entry => ⟨"parent_path", .eqLike, .value (.str (entry.2 ++ "%"))⟩)
    rw [List.map_map, List.map_map] at hany
    cases hd.symm.trans hany
    refine Domain.distributeNot_of_positive (Term.positive_disj fun t ht => ?_)
    obtain ⟨entry, -, rfl⟩ := List.mem_map.mp ht
    trivial
  | ids ids => rfl

theorem HierarchyOf.onRecords {m : Model} {target : Target} {d e : Domain} (h : HierarchyOf s build m target d)
    (htarget : ∀ field, target = .via field → field = head) (he : Domain.distributeNot d = .ok e) :
    ∀ l' ∈ e.leaves, OnRecords head l' := by
  cases h with
  | never =>
    cases he
    exact nofun
  | own h =>
    cases h.distributeNot.symm.trans he
    exact h.onRecords
  | via h _ =>
    cases he
    intro l' hl'
    rw [List.mem_singleton.mp hl']
    exact onRecords_found _ (.inr (htarget _ rfl))

/-! ### Steps -/

/-- What a leaf with a hierarchy operator can become. -/
inductive HierarchyStep (s : Setting) (build : QueryBuilder) (l : Leaf) (p : Place) : Step → Prop
  /-- The same leaf, on the parent that has the field. -/
  | inherited {parent link} : classify s.registry p.model l = .ok (.inherited parent link) →
      HierarchyStep s build l p (.followTo l p link parent)
  /-- The rest of its path, on the records that are joined. -/
  | joined {comodel rest} : classify s.registry p.model l = .ok (.joinedPath comodel rest) →
      HierarchyStep s build l p (.followTo { l with left := rest } p l.path.1 comodel)
  /-- Conditions on records in its stead. -/
  | expanded {e : Domain} : (∀ l' ∈ e.leaves, OnRecords l.path.1 l') →
      HierarchyStep s build l p (.requeue (Work.ofDomain p e))
  /-- Whether a row of the relation table leads to one of the records. -/
  | related {f comodel relation} (found : Found) : classify s.registry p.model l = .ok (.many2many f comodel) →
      f.relation = some relation → HierarchyStep s build l p (.emit (linkedTo p f.name relation true (.ofFound found)))
  /-- The same leaf, on a time instead of a date. -/
  | widened {l'} : classify s.registry p.model l = .ok .datetime → widenDate? l = some l' →
      HierarchyStep s build l p (.leaf l' p)
  /-- A field without a column and without a search hook, and an attachment, cannot be searched, and count as found. -/
  | unsearchable : ((∃ f, classify s.registry p.model l = .ok (.computed f) ∧ f.search.bind s.registry.hook? = none) ∨
      ∃ f, classify s.registry p.model l = .ok (.attachment f)) → HierarchyStep s build l p (.emit (.literal true))
  /-- What a search hook answers. -/
  | hook {f name hook op operand d e} : classify s.registry p.model l = .ok (.computed f) → f.search = some name →
      s.registry.hook? name = some hook → HookOperand s build l f op operand → hook p.model op operand = .ok d →
      Domain.distributeNot d = .ok e → HierarchyStep s build l p (.requeue (Work.ofDomain p e))

/-- A condition on records in the stead of the leaf. -/
theorem HierarchyStep.leaf {l' : Leaf} (h : OnRecords l.path.1 l') : HierarchyStep s build l p (.leaf l' p) := by
  refine .expanded (e := [.leaf l']) fun l₁ hl₁ => ?_
  rw [List.mem_singleton.mp hl₁]
  exact h

theorem hierarchyDomain_expands {m : Model} {target : Target} (htarget : ∀ field, target = .via field → field = l.path.1)
    (dir : Direction) (ids : List Int) (parent : Option String) :
    (hierarchyDomain s build dir ids m parent target >>= (Step.domain · p)).Meets
      (HierarchyStep s build l p) (Fails s build l p) :=
  .bind (hierarchyDomain_meets dir ids m parent target) fun _ hd => domain_meets _ fun _ he =>
    .expanded (hd.onRecords htarget he)

/-- A column is not compared: the leaf is rejected. -/
theorem emitLeaf_rejects (hop : l.op.isHierarchy) {f : Field} (hf : p.model.field? l.left = some f) (t : Trace) :
    ∃ fault, (emitLeaf s l p).run t = (.error (.error (.invalidLeaf l.text fault)), t) := by
  have hcondition : ∃ fault, plainCondition l p s.context = .error (.invalidLeaf l.text fault) := by
    unfold plainCondition
    rw [hf]
    dsimp only
    cases l.right with
    | subquery sub =>
      refine ⟨.subqueryOperator, ?_⟩
      rcases Operator.eq_of_isHierarchy hop with hop | hop <;> simp only [inSubquery, hop]
    | value v =>
      refine ⟨.needsRelation l.op, ?_⟩
      rcases Operator.eq_of_isHierarchy hop with hop | hop <;> simp only [literalLeaf, hop]
  obtain ⟨fault, hcondition⟩ := hcondition
  refine ⟨fault, ?_⟩
  unfold emitLeaf
  rw [hcondition]
  rfl

theorem emitLeaf_expands (hop : l.op.isHierarchy) {f : Field} (hf : p.model.field? l.left = some f) :
    (emitLeaf s l p).Meets (HierarchyStep s build l p) (Fails s build l p) where
  gives {t _ _} h := by
    obtain ⟨fault, hrejects⟩ := emitLeaf_rejects (s := s) hop hf t
    cases hrejects.symm.trans h
  stops {t _ _} h := by
    obtain ⟨fault, hrejects⟩ := emitLeaf_rejects (s := s) hop hf t
    cases hrejects.symm.trans h
    exact .leaf fault

/-! ### Kinds -/

theorem reducePath_expands {f : Field} {comodel : Model} {rest : String} :
    (reducePath s build l l.path.1 rest p f comodel).Meets (HierarchyStep s build l p) (Fails s build l p) := by
  have search : ∀ ctx, (findWith build ctx comodel.name (.ofLeaf rest l.op l.right) >>= fun x => pure x.operand :
      Run Operand).Meets (fun operand => OnRecords l.path.1 ⟨l.path.1, .within, operand⟩) (Fails s build l p) := fun ctx =>
    .bind (findWith_meets ctx _ _) fun found _ => .pure (onRecords_found found (.inr rfl))
  refine .bind (P := fun operand => OnRecords l.path.1 ⟨l.path.1, .within, operand⟩) ?_ fun operand h => .pure (.leaf h)
  unfold reducePath.target
  split
  · exact search _
  · refine .bind (P := fun _ => True) (.ofExcept (fun _ _ => trivial) fun _ h => .inverseName h) fun name _ => ?_
    split
    · exact .bind (fails_admits.lineIds comodel _) fun ids _ => .pure (.ids ids (.inr rfl))
    · exact search _
  · exact search _

theorem reduceComputed_expands {f : Field} (hk : classify s.registry p.model l = .ok (.computed f)) :
    (reduceComputed s build l p f).Meets (HierarchyStep s build l p) (Fails s build l p) := by
  have ask : ∀ {name hook op operand}, f.search = some name → s.registry.hook? name = some hook →
      HookOperand s build l f op operand → (Run.callHook name hook p.model op operand >>= (Step.domain · p)).Meets
        (HierarchyStep s build l p) (Fails s build l p) := fun hname hhook hop =>
    .bind (.callHook (fun _ h => h) fun _ h => .answer (.hook hhook h)) fun d hd =>
      domain_meets d fun _ he => .hook hk hname hhook hop hd he
  unfold reduceComputed
  split
  · rename_i hname
    refine .bind (.log _ _) fun _ _ => .pure (.unsearchable (.inl ⟨f, hk, ?_⟩))
    rw [hname]
    rfl
  · rename_i name hname
    split
    · rename_i hhook
      refine .bind (.log _ _) fun _ _ => .pure (.unsearchable (.inl ⟨f, hk, ?_⟩))
      rw [hname]
      exact hhook
    · rename_i hook hhook
      split
      · rename_i hrest
        exact ask hname hhook (.own hrest)
      · rename_i rest hrest
        refine .bind (.ofExcept (P := (s.registry.comodel f = .ok ·)) (fun _ h => h) fun _ h => .comodel h)
          fun comodel hc => ?_
        exact .bind (findWith_meets _ _ _) fun found hf => ask hname hhook (.rest hrest hc hf)

theorem reduceAttachment_expands (hop : l.op.isHierarchy) {f : Field}
    (hk : classify s.registry p.model l = .ok (.attachment f)) :
    (reduceAttachment s l p f).Meets (HierarchyStep s build l p) (Fails s build l p) := by
  unfold reduceAttachment
  dsimp only
  split
  · rename_i heq _
    rw [heq] at hop
    cases hop
  · rename_i hne _
    rw [hne] at hop
    cases hop
  · exact .bind (.log _ _) fun _ _ => .pure (.unsearchable (.inr ⟨f, hk⟩))

theorem reduceMany2one_expands {dir : Direction} (hdir : Direction.ofOperator? l.op = some dir) (comodel : Model) :
    (reduceMany2one s build l l.path.1 p comodel).Meets (HierarchyStep s build l p) (Fails s build l p) := by
  unfold reduceMany2one
  rw [hdir]
  refine .bind (fails_admits.rootIds comodel) fun ids _ => ?_
  split
  · exact hierarchyDomain_expands (fun _ h => by cases h) _ _ _
  · exact hierarchyDomain_expands (fun field h => (Target.via.inj h).symm) _ _ _

theorem reduceIdHierarchy_expands {dir : Direction} (hdir : Direction.ofOperator? l.op = some dir) :
    (reduceIdHierarchy s build l p).Meets (HierarchyStep s build l p) (Fails s build l p) := by
  unfold reduceIdHierarchy
  rw [hdir]
  exact .bind (fails_admits.rootIds _) fun ids _ => hierarchyDomain_expands (fun _ h => by cases h) _ _ _

theorem reduceOne2many_expands {dir : Direction} (hdir : Direction.ofOperator? l.op = some dir) {f : Field}
    (hname : f.name = l.path.1) (comodel : Model) :
    (reduceOne2many s build l p f comodel).Meets (HierarchyStep s build l p) (Fails s build l p) := by
  unfold reduceOne2many
  refine .bind (.ofExcept (P := fun _ => True) (fun _ _ => trivial) fun _ h => .inverseField h) fun inverse _ => ?_
  dsimp only
  rw [hdir]
  unfold one2manyHierarchy
  refine .bind (fails_admits.rootIds comodel) fun ids _ => ?_
  split
  · exact hierarchyDomain_expands (fun _ h => by cases h) _ _ _
  · split
    · exact hierarchyDomain_expands (fun field h => (Target.via.inj h).symm.trans hname) _ _ _
    · refine .bind (hierarchyDomain_meets _ _ _ _ _) fun d _ => .bind (fails_admits.lineIds comodel d) fun lines _ => ?_
      refine domain_meets _ fun e he => ?_
      cases he
      exact .leaf (.ids lines (.inr hname))

theorem reduceMany2many_expands {dir : Direction} (hdir : Direction.ofOperator? l.op = some dir) {f : Field}
    {comodel : Model} (hk : classify s.registry p.model l = .ok (.many2many f comodel)) :
    (reduceMany2many s build l p f comodel).Meets (HierarchyStep s build l p) (Fails s build l p) := by
  unfold reduceMany2many
  split
  · rename_i hrel
    exact .fail (.relation hk hrel)
  · rename_i relation hrel
    dsimp only
    rw [hdir]
    unfold many2manyHierarchy
    refine .bind (fails_admits.rootIds comodel) fun ids _ => .bind (hierarchyDomain_meets _ _ _ _ _) fun d _ =>
      .bind (findWith_meets _ _ _) fun found _ => ?_
    split
    · exact .pure (.leaf (onRecords_found found (.inl rfl)))
    · exact .pure (.related found hk hrel)

theorem reduceLines_expands {f : Field} {comodel : Model} {rest : String} :
    (reduceKind s build l p (.linesPath f comodel rest)).Meets (HierarchyStep s build l p) (Fails s build l p) :=
  .bind (.ofExcept (P := fun _ => True) (fun _ _ => trivial) fun _ h => .inverseName h) fun _ _ =>
    .bind (build_meets _ _ _) fun _ _ => .pure (.leaf (.rows _ (.inl rfl)))

/-! ### All kinds -/

/-- A leaf with a hierarchy operator on a column of its own: a plain one, a time that is not compared with a date, or a
    translated one without a value. -/
inductive OnColumn (s : Setting) (l : Leaf) (p : Place) : Prop
  | plain : classify s.registry p.model l = .ok .plain → OnColumn s l p
  | datetime : classify s.registry p.model l = .ok .datetime → widenDate? l = none → OnColumn s l p
  | translatable : classify s.registry p.model l = .ok .translatable → l.right.isTruthy = false → OnColumn s l p

theorem ne_eqIfSet_of_isHierarchy (hop : l.op.isHierarchy) : l.op ≠ .eqIfSet := by
  rcases Operator.eq_of_isHierarchy hop with hop | hop <;> rw [hop] <;> nofun

/-- A leaf with a hierarchy operator becomes what `HierarchyStep` lists. Nothing is said of translated columns. -/
theorem reduce_expands (hr : s.registry.Valid) (hp : s.registry.Has p.model) (hop : l.op.isHierarchy)
    (htranslated : classify s.registry p.model l = .ok .translatable → l.right.isTruthy = false) :
    (reduce s build l p).Meets (HierarchyStep s build l p) (Fails s build l p) := by
  obtain ⟨dir, hdir⟩ : ∃ dir, Direction.ofOperator? l.op = some dir := by
    rcases Operator.eq_of_isHierarchy hop with hop | hop <;> rw [hop] <;> exact ⟨_, rfl⟩
  unfold reduce
  rw [if_neg (ne_eqIfSet_of_isHierarchy hop)]
  refine .bind (.ofExcept (P := (classify s.registry p.model l = .ok ·)) (fun _ h => h) fun _ h => .classify h)
    fun kind hk => ?_
  cases kind with
  | inherited parent link => exact .pure (.inherited hk)
  | idHierarchy => exact reduceIdHierarchy_expands hdir
  | joinedPath comodel rest => exact .pure (.joined hk)
  | linesPath f comodel rest => exact reduceLines_expands
  | path f comodel rest => exact reducePath_expands
  | computed f => exact reduceComputed_expands hk
  | one2many f comodel =>
    have hpath : l.path.1 = l.left := Leaf.path_eq_of_none (classify_fits hk)
    cases classify_ok hk with
    | one2many hf _ _ => exact reduceOne2many_expands hdir ((hr.name_field hp hf).trans hpath.symm) comodel
  | many2many f comodel => exact reduceMany2many_expands hdir hk
  | many2one comodel => exact reduceMany2one_expands hdir comodel
  | attachment f => exact reduceAttachment_expands hop hk
  | datetime =>
    rw [reduceKind]
    split
    · exact .pure (.widened hk ‹_›)
    · cases classify_ok hk with
      | datetime hf => exact emitLeaf_expands hop hf
  | translatable =>
    rw [reduceKind, htranslated hk]
    cases classify_ok hk with
    | translatable hf => exact emitLeaf_expands hop hf
  | plain =>
    cases classify_ok hk with
    | plain hf _ _ => exact emitLeaf_expands hop hf

/-- On a column of its own it is rejected. -/
theorem reduce_rejects (hop : l.op.isHierarchy) (hcolumn : OnColumn s l p) (t : Trace) :
    ∃ fault, (reduce s build l p).run t = (.error (.error (.invalidLeaf l.text fault)), t) := by
  have hkind : ∀ {kind}, classify s.registry p.model l = .ok kind →
      (reduce s build l p).run t = (reduceKind s build l p kind).run t := fun hk => by
    unfold reduce
    rw [if_neg (ne_eqIfSet_of_isHierarchy hop), hk]
    rfl
  cases hcolumn with
  | plain hk =>
    cases classify_ok hk with
    | plain hf _ _ =>
      rw [hkind hk]
      exact emitLeaf_rejects hop hf t
  | datetime hk hdate =>
    cases classify_ok hk with
    | datetime hf =>
      rw [hkind hk, reduceKind, hdate]
      exact emitLeaf_rejects hop hf t
  | translatable hk hfalsy =>
    cases classify_ok hk with
    | translatable hf =>
      rw [hkind hk, reduceKind, hfalsy]
      exact emitLeaf_rejects hop hf t

end Compile
end RecordFilter
