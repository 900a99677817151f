import RecordFilter.Proofs.Compile.Asking
import RecordFilter.Proofs.Compile.Hierarchies
import RecordFilter.Proofs.Compile.JoinOrder

/-! The calls that a compilation makes. Each belongs to a leaf that stands in the domain, in what a search hook
    answered, in what a leaf turned into, or in the domain of a query inside the query. Access rules are left out where
    the hierarchy of a `child_of` leaf is walked down by parent links, and nowhere else: whatever is searched by a name
    or a path of a leaf is searched under the rules. -/

namespace RecordFilter
open Sql

/-- The call is a search that leaves access rules out. -/
def Call.isPrivileged : Call → Bool
  | .search _ _ options | .names _ _ _ options => options.privileged
  | .references _ _ _ | .parentPaths _ _ | .hook _ _ _ _ => false

theorem Call.isPrivileged_nameCall (b : Backend) (m : Model) (name : Json) (op : Operator) (options : SearchOptions) :
    (b.nameCall m name op options).isPrivileged = options.privileged := by
  unfold Backend.nameCall
  split <;> rfl

/-- What was called after `t` is in `P`. -/
def Trace.Adds (P : Call → Prop) (t t' : Trace) : Prop :=
  ∃ calls, t'.calls = t.calls ++ calls ∧ ∀ call ∈ calls, P call

namespace Trace.Adds
variable {P P' : Call → Prop} {t t' t'' : Trace}

theorem of_calls_eq (h : t'.calls = t.calls) : t.Adds P t' := ⟨[], by rw [h, List.append_nil], nofun⟩

theorem imp (hP : ∀ call, P call → P' call) (h : t.Adds P t') : t.Adds P' t' :=
  Exists.imp (fun _ => And.imp_right fun hall call hcall => hP call (hall call hcall)) h

theorem trans (h : t.Adds P t') (h' : t'.Adds P t'') : t.Adds P t'' := by
  obtain ⟨calls, hcalls, hall⟩ := h
  obtain ⟨calls', hcalls', hall'⟩ := h'
  refine ⟨calls ++ calls', by rw [hcalls', hcalls, List.append_assoc], fun call hcall => ?_⟩
  exact (List.mem_append.mp hcall).elim (hall call) (hall' call)

end Trace.Adds

namespace Run
variable {α β : Type} {P : Call → Prop}

/-- Whatever was called before, the run makes only calls in `P`, also where it fails. -/
def Makes (P : Call → Prop) (x : Run α) : Prop := ∀ t : Trace, t.Adds P (x.run t).2

namespace Makes

theorem pure (a : α) : Makes P (Pure.pure a) := fun _ => .of_calls_eq rfl

theorem throw (e : Stop) : Makes P (MonadExcept.throw e : Run α) := fun _ => .of_calls_eq rfl

theorem fail (e : Error) : Makes P (Run.fail e : Run α) := throw _

theorem imp {P' : Call → Prop} {x : Run α} (hx : Makes P x) (hP : ∀ call, P call → P' call) : Makes P' x :=
  fun t => (hx t).imp hP

/-- The second part is reached with what the first part gives. -/
theorem bind_of_gives {x : Run α} {f : α → Run β} (hx : Makes P x)
    (hf : ∀ a t t', x.Gives t a t' → Makes P (f a)) : Makes P (x >>= f) := by
  intro t
  have h := hx t
  rw [run_bind]
  rcases hrun : x.run t with ⟨e | a, t'⟩ <;> rw [hrun] at h
  · exact h
  · exact h.trans (hf a t t' hrun t')

theorem bind {x : Run α} {f : α → Run β} (hx : Makes P x) (hf : ∀ a, Makes P (f a)) : Makes P (x >>= f) :=
  hx.bind_of_gives fun a _ _ _ => hf a

theorem ofExcept (x : Except Error α) : Makes P (Run.ofExcept x) := by
  cases x with
  | ok a => exact pure a
  | error e => exact fail e

/-- A first part that makes no calls, and whose result is known to be right. -/
theorem ofExcept_bind {x : Except Error α} {f : α → Run β} (hf : ∀ a, x = .ok a → Makes P (f a)) :
    Makes P (Run.ofExcept x >>= f) :=
  (ofExcept x).bind_of_gives fun a _ _ hgives => hf a (eq_ok_of_gives hgives)

theorem log (e : Log.Event) (fields : List (String × String)) : Makes P (Run.log e fields) :=
  fun _ => .of_calls_eq rfl

theorem answer {call : Call} (h : P call) (y : List Call → Except Error α) :
    Makes P (record call >>= fun history => Run.ofExcept (y history)) :=
  .bind (fun _ => ⟨[call], rfl, List.forall_mem_singleton.mpr h⟩) fun _ => ofExcept _

theorem search {b : Backend} {m : Model} {d : Domain} {options : SearchOptions} (h : P (.search m.name d options)) :
    Makes P (Run.search b m d options) := answer h _

theorem nameSearch {b : Backend} {m : Model} {name : Json} {op : Operator} {options : SearchOptions}
    (h : P (b.nameCall m name op options)) : Makes P (Run.nameSearch b m name op options) := answer h _

theorem references {b : Backend} {m : Model} {ids : List Int} {field : String} (h : P (.references m.name ids field)) :
    Makes P (Run.references b m ids field) := answer h _

theorem parentPaths {b : Backend} {m : Model} {ids : List Int} (h : P (.parentPaths m.name ids)) :
    Makes P (Run.parentPaths b m ids) := answer h _

theorem callHook {name : String} {hook : Hook} {m : Model} {op : Operator} {operand : Operand}
    (h : P (.hook name m.name op operand)) : Makes P (Run.callHook name hook m op operand) := answer h _

end Makes
end Run

namespace Compile

/-! ### What a leaf calls for -/

/-- The models whose records a leaf is about: that of its place, and the one that its field refers to. -/
inductive Concerns (r : Registry) (l : Leaf) (p : Place) : Model → Prop
  | own : Concerns r l p p.model
  | comodel {f comodel} : p.model.field? l.path.1 = some f → r.comodel f = .ok comodel → Concerns r l p comodel

/-- The names that a leaf compares with: its value, or one of the names in it. -/
inductive NamedBy (l : Leaf) : Json → Prop
  | whole {v} : l.right = .value v → NamedBy l v
  | one {v names name} : l.right = .value v → names? v = some names → name ∈ names → NamedBy l (.str name)

/-- The fields that lead from the records of a hierarchy to their parents: the parent field of the model, or the field
    of the leaf itself where it refers to its own model. -/
inductive ParentField (r : Registry) (l : Leaf) (p : Place) : Model → String → Prop
  | parent {m} : Concerns r l p m → ParentField r l p m m.parentName
  | reference {f comodel} : p.model.field? l.path.1 = some f → r.comodel f = .ok comodel →
      comodel.name = p.model.name → ParentField r l p p.model l.path.1
  | lines {f comodel} : p.model.field? l.path.1 = some f → f.type = .one2many → r.comodel f = .ok comodel →
      comodel.name = p.model.name → ParentField r l p p.model f.name

/-- The search for the children of some records, on the way down a hierarchy. -/
inductive Descends (s : Setting) (l : Leaf) (p : Place) : Call → Prop
  | level {m parent} (ids) : l.op = .childOf → ParentField s.registry l p m parent →
      Descends s l p (.search m.name (.ofLeaf parent .within (.value (.ofIds ids)))
        { privileged := true, activeTest := s.context.activeTest })

/-- The other calls for a leaf. Searches are for its names, for the rest of its path, for the records of its hierarchy,
    or for any lines of its field, and keep to the access rules. -/
inductive Requests (s : Setting) (l : Leaf) (p : Place) : Call → Prop
  | names {m value} (op activeTest) : Concerns s.registry l p m → NamedBy l value →
      Requests s l p (s.backend.nameCall m value op { privileged := false, activeTest := activeTest })
  | rest {m rest} : Concerns s.registry l p m → l.path.2 = some rest →
      Requests s l p (.search m.name (.ofLeaf rest l.op l.right)
        { privileged := false, activeTest := s.context.activeTest })
  | related {m d} : Concerns s.registry l p m → OwnHierarchy d →
      Requests s l p (.search m.name d { privileged := false, activeTest := s.context.activeTest })
  | lines {m f inverse} : Concerns s.registry l p m → inverseField p.model f m = .ok inverse →
      Requests s l p (.search m.name (.ofLeaf inverse.name .ne (.value (.bool false)))
        { privileged := false, activeTest := s.context.activeTest })
  | references {m} (ids field) : Concerns s.registry l p m → Requests s l p (.references m.name ids field)
  | parentPaths {m} (ids) : Concerns s.registry l p m → Requests s l p (.parentPaths m.name ids)
  | hook {name hook} (op operand) : s.registry.hook? name = some hook →
      Requests s l p (.hook name p.model.name op operand)

/-- A call for a leaf at a place. Access rules are left out on the way down a hierarchy, and kept in all else. -/
def CallsFor (s : Setting) (l : Leaf) (p : Place) (call : Call) : Prop :=
  call.isPrivileged = true ∧ Descends s l p call ∨ call.isPrivileged = false ∧ Requests s l p call

variable {s : Setting} {build : QueryBuilder} {l : Leaf} {p : Place} {m : Model} {P : Call → Prop}

theorem Descends.callsFor {call : Call} (h : Descends s l p call) : CallsFor s l p call := by
  refine .inl ⟨?_, h⟩
  cases h
  rfl

theorem Requests.callsFor {call : Call} (h : Requests s l p call) : CallsFor s l p call := by
  refine .inr ⟨?_, h⟩
  cases h with
  | names => rw [Call.isPrivileged_nameCall]
  | _ => rfl

/-- All that a leaf calls for is in `P`, itself or in the queries that it needs. -/
structure Allows (s : Setting) (build : QueryBuilder) (l : Leaf) (p : Place) (P : Call → Prop) : Prop where
  call {call} : CallsFor s l p call → P call
  build {ctx model d} : Nests s l ctx model d → (build ctx model d).Makes P

namespace Allows

theorem descends (h : Allows s build l p P) {call : Call} (hcall : Descends s l p call) : P call :=
  h.call hcall.callsFor

theorem requests (h : Allows s build l p P) {call : Call} (hcall : Requests s l p call) : P call :=
  h.call hcall.callsFor

end Allows

/-! ### Names and ids -/

theorem idsOfNames_makes (h : Allows s build l p P) (hm : Concerns s.registry l p m) (options : Bool)
    {names : List String} (hnames : ∀ name ∈ names, NamedBy l (.str name)) :
    (idsOfNames s m { activeTest := options } names).Makes P := by
  induction names with
  | nil => exact .pure _
  | cons name rest ih =>
    obtain ⟨hname, hrest⟩ := List.forall_mem_cons.mp hnames
    exact .bind (.nameSearch (h.requests (.names _ _ hm hname))) fun found => .bind (ih hrest) fun others => .pure _

theorem rootIds_makes (h : Allows s build l p P) (hm : Concerns s.registry l p m) : (rootIds s l m).Makes P := by
  unfold rootIds
  cases hright : l.right with
  | subquery => exact .fail _
  | value v =>
    dsimp only
    cases hnames : names? v with
    | some names =>
      exact .bind (idsOfNames_makes h hm _ fun name hname => .one hright hnames hname) fun ids => .pure _
    | none =>
      cases v with
      | bool flag =>
        cases flag
        · exact .bind (.log _ _) fun _ => .pure _
        · exact .fail _
      | int n =>
        dsimp only
        cases (Json.int n).int64? with
        | none => exact .fail _
        | some id =>
          dsimp only
          split
          · exact .bind (.log _ _) fun _ => .pure _
          · exact .pure _
      | arr items =>
        dsimp only
        cases integers? items with
        | none => exact .fail _
        | some ids => exact .pure _
      | null => exact .fail _
      | float x => exact .fail _
      | str text => exact .fail _
      | obj members => exact .fail _

theorem relatedOf_makes (h : Allows s build l p P) (hm : Concerns s.registry l p m) : (relatedOf s l m).Makes P := by
  unfold relatedOf
  cases hright : l.right with
  | subquery => exact .pure _
  | value v =>
    dsimp only
    cases names? v with
    | some names => exact .bind (.nameSearch (h.requests (.names _ _ hm (.whole hright)))) fun ids => .pure _
    | none =>
      cases v with
      | int n =>
        dsimp only
        cases (Json.int n).int64? with
        | none => exact .fail _
        | some id => exact .pure _
      | arr items =>
        dsimp only
        cases integers? (setItems items) with
        | none => exact .fail _
        | some ids => exact .pure _
      | null => exact .fail _
      | bool flag => exact .fail _
      | float x => exact .fail _
      | str text => exact .fail _
      | obj members => exact .fail _

theorem nameLeaf_makes (h : Allows s build l p P) (hm : Concerns s.registry l p m) {names : Json}
    (hright : l.right = .value names) : (nameLeaf s l m names).Makes P :=
  .bind (.nameSearch (h.requests (.names _ _ hm (.whole hright)))) fun _ => .pure _

/-! ### Hierarchies -/

theorem nextLevel_makes (h : Allows s build l p P) (hm : Concerns s.registry l p m) {dir : Direction}
    (hdir : Direction.ofOperator? l.op = some dir) {parent : String} (hparent : ParentField s.registry l p m parent)
    (ids : List Int) : (nextLevel s dir m parent ids).Makes P := by
  cases dir with
  | descendants =>
    have hop : l.op = .childOf := by
      cases hop : l.op <;> rw [hop] at hdir <;> cases hdir
    exact .search (h.descends (.level ids hop hparent))
  | ancestors => exact .references (h.requests (.references ids parent hm))

theorem walk_makes (h : Allows s build l p P) (hm : Concerns s.registry l p m) {dir : Direction}
    (hdir : Direction.ofOperator? l.op = some dir) {parent : String} (hparent : ParentField s.registry l p m parent)
    (rounds : Nat) (visited frontier : IdSet) : (walk s dir m parent rounds visited frontier).Makes P := by
  induction rounds generalizing visited frontier with
  | zero =>
    unfold walk
    split
    · exact .pure _
    · exact .fail _
  | succ rounds ih =>
    unfold walk
    split
    · exact .pure _
    · exact .bind (nextLevel_makes h hm hdir hparent _) fun next => ih _ _

theorem hierarchy_makes (h : Allows s build l p P) (hm : Concerns s.registry l p m) {dir : Direction}
    (hdir : Direction.ofOperator? l.op = some dir) (ids : List Int) {parent : Option String}
    (hparent : ParentField s.registry l p m (parent.getD m.parentName)) :
    (hierarchy s dir ids m parent).Makes P := by
  have hpaths : Run.Makes P (Run.parentPaths s.backend m ids) := .parentPaths (h.requests (.parentPaths ids hm))
  unfold hierarchy
  dsimp only
  split
  · cases dir with
    | descendants => exact .bind hpaths fun paths => .bind (.log _ _) fun _ => .ofExcept _
    | ancestors => exact .bind hpaths fun paths => .bind (.ofExcept _) fun found => .bind (.log _ _) fun _ => .pure _
  · exact .bind (walk_makes h hm hdir hparent _ _ _) fun found => .bind (.log _ _) fun _ => .pure _

theorem findWith_makes (h : Allows s build l p P) {ctx : Context} {model : String} {d : Domain}
    (hd : Nests s l ctx model d) : (findWith build ctx model d).Makes P := by
  refine .bind (.ofExcept _) fun isFalse => ?_
  cases isFalse
  · exact .bind (h.build hd) fun q => .pure _
  · exact .pure _

/-- The hierarchies of a leaf: those that its own records form, and those of the records that it refers to. Only the
    latter are looked up by a query. -/
theorem hierarchyDomain_makes (h : Allows s build l p P) (hm : Concerns s.registry l p m) {dir : Direction}
    (hdir : Direction.ofOperator? l.op = some dir) (ids : List Int) (parent : Option String)
    (hparent : ParentField s.registry l p m (parent.getD m.parentName)) {target : Target}
    (htarget : target ≠ .ids → s.registry.Has m) :
    (hierarchyDomain s build dir ids m parent target).Makes P := by
  unfold hierarchyDomain
  split
  · exact .pure _
  · refine (hierarchy_makes h hm hdir ids hparent).bind_of_gives fun d t t' hgives => ?_
    cases target with
    | ids => exact .pure _
    | via field =>
      have hadmits : Admits s l (Fails s build l p) := fails_admits
      have hown : OwnHierarchy d := (hadmits.hierarchy dir ids m parent).gives hgives
      have hnests := Nests.hierarchy (s := s) (l := l) (htarget nofun) (isHierarchy_of_direction hdir) hown
      exact .bind (findWith_makes h hnests) fun found => .pure _

/-- A run that goes on with the domain of a hierarchy on the model's own records. -/
theorem ownHierarchy_bind_makes {α : Type} (h : Allows s build l p P) (hm : Concerns s.registry l p m)
    {dir : Direction} (hdir : Direction.ofOperator? l.op = some dir) (ids : List Int) {f : Domain → Run α}
    (hf : ∀ d, OwnHierarchy d → (f d).Makes P) : (hierarchyDomain s build dir ids m none .ids >>= f).Makes P :=
  (hierarchyDomain_makes h hm hdir ids none (.parent hm) (absurd rfl)).bind_of_gives fun d _ _ hgives =>
    hf d ((hierarchyDomain_meets (l := l) (p := p) dir ids m none .ids).gives hgives).toOwn

/-! ### Leaves -/

theorem domain_makes (d : Domain) : (Step.domain d p).Makes P := .bind (.ofExcept _) fun _ => .pure _

/-- The domain of a hierarchy in the stead of a leaf. -/
theorem hierarchyStep_makes (h : Allows s build l p P) (hm : Concerns s.registry l p m) {dir : Direction}
    (hdir : Direction.ofOperator? l.op = some dir) (ids : List Int) (parent : Option String)
    (hparent : ParentField s.registry l p m (parent.getD m.parentName)) {target : Target}
    (htarget : target ≠ .ids → s.registry.Has m) :
    Run.Makes P (do Step.domain (← hierarchyDomain s build dir ids m parent target) p) :=
  .bind (hierarchyDomain_makes h hm hdir ids parent hparent htarget) fun d => domain_makes d

theorem emitLeaf_makes : (emitLeaf s l p).Makes P := by
  refine .bind (.ofExcept _) fun c => ?_
  cases leafNotice? l with
  | none => exact .pure _
  | some notice => exact .bind (.log _ _) fun _ => .pure _

theorem one2manyHierarchy_makes (h : Allows s build l p P) {f : Field} (hf : p.model.field? l.path.1 = some f)
    (htype : f.type = .one2many) (hm : s.registry.comodel f = .ok m) {dir : Direction}
    (hdir : Direction.ofOperator? l.op = some dir) (inverse : Field) :
    (one2manyHierarchy s build dir l p f inverse m).Makes P := by
  have hconcerns : Concerns s.registry l p m := .comodel hf hm
  refine .bind (rootIds_makes h hconcerns) fun ids => ?_
  split
  · rename_i hself
    exact hierarchyStep_makes h .own hdir ids (some f.name) (.lines hf htype hm hself) (absurd rfl)
  · split
    · exact hierarchyStep_makes h hconcerns hdir ids none (.parent hconcerns) fun _ => Registry.has_of_comodel hm
    · refine ownHierarchy_bind_makes h hconcerns hdir ids fun d hown => ?_
      exact .bind (.search (h.requests (.related hconcerns hown))) fun lines => domain_makes _

theorem allOwners_makes (h : Allows s build l p P) (hm : Concerns s.registry l p m) {f inverse : Field}
    (hinverse : inverseField p.model f m = .ok inverse) : (allOwners s inverse m).Makes P := by
  unfold allOwners
  split
  · exact .pure _
  · refine .bind (.search (h.requests (.lines hm hinverse))) fun lines => ?_
    exact .bind (.references (h.requests (.references lines _ hm))) fun owners => .pure _

theorem reduceOne2many_makes (h : Allows s build l p P) {f : Field} (hf : p.model.field? l.path.1 = some f)
    (htype : f.type = .one2many) (hm : s.registry.comodel f = .ok m) : (reduceOne2many s build l p f m).Makes P := by
  have hconcerns : Concerns s.registry l p m := .comodel hf hm
  refine .ofExcept_bind fun inverse hinverse => ?_
  cases hdir : Direction.ofOperator? l.op with
  | some dir => exact one2manyHierarchy_makes h hf htype hm hdir inverse
  | none =>
    dsimp only
    split
    · exact .bind (allOwners_makes h hconcerns hinverse) fun owners => .pure _
    · refine .bind (relatedOf_makes h hconcerns) fun related => ?_
      cases related with
      | ids ids =>
        cases ids with
        | nil => exact .pure _
        | cons id ids =>
          cases inverse.store with
          | true => exact .pure _
          | false => exact .bind (.references (h.requests (.references _ _ hconcerns))) fun owners => .pure _
      | rows sub =>
        cases inverse.store with
        | true => exact .pure _
        | false => exact .fail _

theorem many2manyHierarchy_makes (h : Allows s build l p P) {f : Field} (hf : p.model.field? l.path.1 = some f)
    (hm : s.registry.comodel f = .ok m) {dir : Direction} (hdir : Direction.ofOperator? l.op = some dir)
    (relation : Relation) : (many2manyHierarchy s build dir l p f relation m).Makes P := by
  have hconcerns : Concerns s.registry l p m := .comodel hf hm
  refine .bind (rootIds_makes h hconcerns) fun ids => ownHierarchy_bind_makes h hconcerns hdir ids fun d hown => ?_
  have hnests := Nests.hierarchy (s := s) (l := l) (Registry.has_of_comodel hm) (isHierarchy_of_direction hdir) hown
  refine .bind (findWith_makes h hnests) fun found => ?_
  split
  · exact .pure _
  · exact .pure _

theorem reduceMany2many_makes (h : Allows s build l p P) {f : Field} (hf : p.model.field? l.path.1 = some f)
    (hm : s.registry.comodel f = .ok m) : (reduceMany2many s build l p f m).Makes P := by
  unfold reduceMany2many
  cases f.relation with
  | none => exact .fail _
  | some relation =>
    dsimp only
    cases hdir : Direction.ofOperator? l.op with
    | some dir => exact many2manyHierarchy_makes h hf hm hdir relation
    | none =>
      dsimp only
      split
      · exact .pure _
      · exact .bind (relatedOf_makes h (.comodel hf hm)) fun related => .pure _

theorem target_makes (h : Allows s build l p P) {f : Field} (hf : p.model.field? l.path.1 = some f)
    (hm : s.registry.comodel f = .ok m) {rest : String} (hrest : l.path.2 = some rest) :
    (reducePath.target s build p f m (.ofLeaf rest l.op l.right)).Makes P := by
  have hfind : ∀ ctx, ctx = s.context ∨ ctx = { s.context with activeTest := false } →
      Run.Makes P (do return (← findWith build ctx m.name (.ofLeaf rest l.op l.right)).operand) := fun ctx hctx =>
    .bind (findWith_makes h (.path hctx (Registry.has_of_comodel hm) hrest)) fun found => .pure _
  unfold reducePath.target
  split
  · exact hfind _ (.inr rfl)
  · refine .bind (.ofExcept _) fun name => ?_
    split
    · exact .bind (.search (h.requests (.rest (.comodel hf hm) hrest))) fun lines => .pure _
    · exact hfind _ (.inl rfl)
  · exact hfind _ (.inl rfl)

theorem reduceComputed_makes (h : Allows s build l p P) (f : Field) : (reduceComputed s build l p f).Makes P := by
  unfold reduceComputed
  cases f.search with
  | none => exact .bind (.log _ _) fun _ => .pure _
  | some name =>
    dsimp only
    cases hhook : s.registry.hook? name with
    | none => exact .bind (.log _ _) fun _ => .pure _
    | some hook =>
      have hcall : ∀ op operand, Run.Makes P (Run.callHook name hook p.model op operand) := fun op operand =>
        .callHook (h.requests (.hook op operand hhook))
      dsimp only
      cases hrest : l.path.2 with
      | none => exact .bind (hcall _ _) fun d => domain_makes d
      | some rest =>
        refine .ofExcept_bind fun comodel hcomodel => ?_
        refine .bind (findWith_makes h (.path (.inl rfl) (Registry.has_of_comodel hcomodel) hrest)) fun found => ?_
        exact .bind (hcall _ _) fun d => domain_makes d

theorem reduceAttachment_makes (f : Field) : (reduceAttachment s l p f).Makes P := by
  unfold reduceAttachment
  dsimp only
  split
  · exact .pure _
  · exact .pure _
  · exact .bind (.log _ _) fun _ => .pure _

theorem reduceMany2one_makes (h : Allows s build l p P) {f : Field} (hf : p.model.field? l.path.1 = some f)
    (hm : s.registry.comodel f = .ok m) : (reduceMany2one s build l l.path.1 p m).Makes P := by
  have hconcerns : Concerns s.registry l p m := .comodel hf hm
  unfold reduceMany2one
  cases hdir : Direction.ofOperator? l.op with
  | some dir =>
    refine .bind (rootIds_makes h hconcerns) fun ids => ?_
    split
    · rename_i hself
      exact hierarchyStep_makes h .own hdir ids (some l.path.1) (.reference hf hm hself) (absurd rfl)
    · exact hierarchyStep_makes h hconcerns hdir ids none (.parent hconcerns) fun _ => Registry.has_of_comodel hm
  | none =>
    dsimp only
    cases hright : l.right with
    | subquery sub => exact emitLeaf_makes
    | value v =>
      dsimp only
      split
      · exact .bind (nameLeaf_makes h hconcerns hright) fun named => .pure _
      · exact emitLeaf_makes

theorem reduceIdHierarchy_makes (h : Allows s build l p P) : (reduceIdHierarchy s build l p).Makes P := by
  unfold reduceIdHierarchy
  cases hdir : Direction.ofOperator? l.op with
  | none => exact .fail _
  | some dir =>
    refine .bind (rootIds_makes h .own) fun ids => ?_
    exact hierarchyStep_makes h .own hdir ids none (.parent .own) (absurd rfl)

theorem reduceKind_makes (h : Allows s build l p P) {kind : FieldKind}
    (hk : classify s.registry p.model l = .ok kind) : (reduceKind s build l p kind).Makes P := by
  have hfits := classify_fits hk
  cases kind with
  | inherited parent link => exact .pure _
  | idHierarchy => exact reduceIdHierarchy_makes h
  | joinedPath comodel rest => exact .pure _
  | linesPath f comodel rest =>
    obtain ⟨hf, -, hm⟩ : p.model.field? l.path.1 = some f ∧ _ ∧ s.registry.comodel f = .ok comodel := by
      cases classify_ok hk with | linesPath hf htype hm => exact ⟨hf, htype, hm⟩
    refine .bind (.ofExcept _) fun inverse => .bind (h.build ?_) fun lines => .pure _
    exact .path (.inl rfl) (Registry.has_of_comodel hm) hfits
  | path f comodel rest =>
    cases classify_ok hk with
    | path hf hm => exact .bind (target_makes h hf hm hfits) fun operand => .pure _
  | computed f => exact reduceComputed_makes h f
  | one2many f comodel =>
    cases classify_ok hk with
    | one2many hf htype hm => exact reduceOne2many_makes h (Leaf.path_eq_of_none hfits ▸ hf) htype hm
  | many2many f comodel =>
    cases classify_ok hk with
    | many2many hf _ _ hm => exact reduceMany2many_makes h (Leaf.path_eq_of_none hfits ▸ hf) hm
  | many2one comodel =>
    cases classify_ok hk with
    | many2one hf hm => exact reduceMany2one_makes h (Leaf.path_eq_of_none hfits ▸ hf) hm
  | attachment f => exact reduceAttachment_makes f
  | datetime =>
    unfold reduceKind
    dsimp only
    cases widenDate? l with
    | some widened => exact .pure _
    | none => exact emitLeaf_makes
  | translatable =>
    unfold reduceKind
    dsimp only
    split
    · exact .bind (.ofExcept _) fun c => .pure _
    · exact emitLeaf_makes
  | plain => exact emitLeaf_makes

/-- The reduction of a leaf makes only the calls for it, itself or in the queries that it needs. -/
theorem reduce_makes (h : Allows s build l p P) : (reduce s build l p).Makes P := by
  unfold reduce
  split
  · split
    · exact .pure _
    · exact .pure _
  · exact .ofExcept_bind fun kind hk => reduceKind_makes h hk

end Compile
end RecordFilter
