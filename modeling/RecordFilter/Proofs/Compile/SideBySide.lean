import RecordFilter.Proofs.Compile.Columns
import RecordFilter.Proofs.Compile.Settling
import RecordFilter.Proofs.Schema.Apart

/-! A leaf reduced twice, over a registry and over the same registry without the joins for paths through one field.
    What the two reductions become is read at corresponding places and asks for the same, except where the one follows
    a join through the field and the other one searches for the records behind it. -/

namespace RecordFilter
open Sql

/-! ### Two runs -/

namespace Run
variable {α β γ δ : Type} {R : α → β → Prop} {S : γ → δ → Prop} {x : Run α} {x' : Run β}

/-- Whatever the two runs give, and whatever was called before them, is related. -/
def Relates (R : α → β → Prop) (x : Run α) (x' : Run β) : Prop :=
  ∀ ⦃t a t₁ t' a' t₁'⦄, x.Gives t a t₁ → x'.Gives t' a' t₁' → R a a'

namespace Relates

theorem pure {a : α} {a' : β} (h : R a a') : Relates R (Pure.pure a) (Pure.pure a') := by
  intro t b t₁ t' b' t₁' hb hb'
  cases hb
  cases hb'
  exact h

theorem bind {f : α → Run γ} {f' : β → Run δ} (hx : Relates R x x') (hf : ∀ a a', R a a' → Relates S (f a) (f' a')) :
    Relates S (x >>= f) (x' >>= f') := by
  intro t c t₁ t' c' t₁' hc hc'
  obtain ⟨a, t₂, ha, hfa⟩ := gives_bind.mp hc
  obtain ⟨a', t₂', ha', hfa'⟩ := gives_bind.mp hc'
  exact hf a a' (hx ha ha') hfa hfa'

/-- Runs that give the same go on with the same. -/
theorem bind_same {x x' : Run α} {f : α → Run γ} {f' : α → Run δ} (hx : Relates (fun a a' => a' = a) x x')
    (hf : ∀ a, Relates S (f a) (f' a)) : Relates S (x >>= f) (x' >>= f') :=
  hx.bind fun a _ heq => heq ▸ hf a

theorem fail {e : Error} : Relates R (Run.fail e) x' := by
  intro t a t₁ t' a' t₁' h
  cases h

theorem ofExcept {y : Except Error α} {y' : Except Error β} (h : ∀ a a', y = .ok a → y' = .ok a' → R a a') :
    Relates R (Run.ofExcept y) (Run.ofExcept y') := fun _ _ _ _ _ _ ha ha' =>
  h _ _ (eq_ok_of_gives ha) (eq_ok_of_gives ha')

/-- The same computation gives the same. -/
theorem same (y : Except Error α) : Relates (fun a a' => a' = a) (Run.ofExcept y) (Run.ofExcept y) :=
  ofExcept fun _ _ ha ha' => Except.ok.inj (ha'.symm.trans ha)

/-- Of runs whose results do not matter nothing has to be known. -/
theorem any : Relates (fun _ _ => True) x x' := fun _ _ _ _ _ _ _ _ => trivial

/-- Beside what relates the two results, what is known of each. -/
theorem and_meets {P : α → Prop} {P' : β → Prop} {E E' : Stop → Prop} (h : Relates R x x') (hx : x.Meets P E)
    (hx' : x'.Meets P' E') : Relates (fun a a' => R a a' ∧ P a ∧ P' a') x x' := fun _ _ _ _ _ _ ha ha' =>
  ⟨h ha ha', hx.gives ha, hx'.gives ha'⟩

end Relates
end Run

namespace Compile

variable {V : Type}

/-- The database and the search hooks answer alike to questions that are put in different ways: of a model whose paths
    are compiled in another way, with another subquery for the same values, after other questions. -/
structure Impartial (db : Database V) (r : Registry) (b : Backend) (model field : String) : Prop where
  search : ∀ ⦃history history' m d d' options ids ids'⦄, d.Over (Operand.SameIn db) d' →
    b.search history m d options = .ok ids → b.search history' (m.apart model field) d' options = .ok ids' → ids' = ids
  names : ∀ ⦃history history' m name op options ids ids'⦄, b.findByName history m name op options = .ok ids →
    b.findByName history' (m.apart model field) name op options = .ok ids' → ids' = ids
  references : ∀ ⦃history history' m ids name owners owners'⦄, b.references history m ids name = .ok owners →
    b.references history' (m.apart model field) ids name = .ok owners' → owners' = owners
  parentPaths : ∀ ⦃history history' m ids paths paths'⦄, b.parentPaths history m ids = .ok paths →
    b.parentPaths history' (m.apart model field) ids = .ok paths' → paths' = paths
  hook : ∀ ⦃name hook m op right right' d d'⦄, r.hook? name = some hook → right.SameIn db right' →
    hook m op right = .ok d → hook (m.apart model field) op right' = .ok d' → d.Over (Operand.SameIn db) d'

/-- The setting over the registry without the joins for paths through a field. -/
def Setting.apart (s : Setting) (model field : String) : Setting := { s with registry := s.registry.apart model field }

/-- Two queries that leave no rows out and select the same records. -/
structure SelectsSame (db : Database V) (q q' : Query) : Prop where
  window : q.window.limit = none ∧ q.window.offset = 0
  window' : q'.window.limit = none ∧ q'.window.offset = 0
  selects : ∀ a, db.Selects q a ↔ db.Selects q' a

/-- Two results of a search that give the same records. -/
inductive Found.SameIn (db : Database V) : Found → Found → Prop
  | nothing : SameIn db .nothing .nothing
  | rows {q q'} : SelectsSame db q q' → SameIn db (.rows q) (.rows q')

section
variable {db : Database V} {s : Setting} {model field : String} {m : Model} {l l' : Leaf}

theorem SelectsSame.subselect {q q' : Query} (h : SelectsSame db q q') (name : String) (x : Option V) :
    x ∈ db.engine.rows (q.subselect (.column ⟨q.tableAlias, name⟩)) ↔
      x ∈ db.engine.rows (q'.subselect (.column ⟨q'.tableAlias, name⟩)) := by
  rw [db.mem_rows_subselect h.window, db.mem_rows_subselect h.window']
  simp only [h.selects]

theorem SelectsSame.inIdOrder {q q' : Query} (h : SelectsSame db q q') :
    SelectsSame db (inIdOrder q) (inIdOrder q') := ⟨h.window, h.window', h.selects⟩

theorem Found.SameIn.operand {found found' : Found} (h : found.SameIn db found') :
    found.operand.SameIn db found'.operand := by
  cases h with
  | nothing => exact .value _
  | rows hq => exact .subquery (hq.subselect "id")

theorem Found.SameIn.ofFound {found found' : Found} (h : found.SameIn db found') :
    (Related.ofFound found).SameIn db (Related.ofFound found') := by
  cases h with
  | nothing => exact .ids []
  | rows hq => exact .rows (hq.subselect "id")

/-! ### Answers from outside -/

theorem search_relates (h : Impartial db s.registry s.backend model field) {d d' : Domain}
    (hd : d.Over (Operand.SameIn db) d') (options : SearchOptions) :
    Run.Relates (fun ids ids' => ids' = ids) (Run.search s.backend m d options)
      (Run.search s.backend (m.apart model field) d' options) :=
  .bind .any fun _ _ _ => .ofExcept fun _ _ hids hids' => h.search hd hids hids'

theorem nameSearch_relates (h : Impartial db s.registry s.backend model field) (name : Json) (op : Operator)
    (options : SearchOptions) :
    Run.Relates (fun ids ids' => ids' = ids) (Run.nameSearch s.backend m name op options)
      (Run.nameSearch s.backend (m.apart model field) name op options) :=
  .bind .any fun _ _ _ => .ofExcept fun _ _ hids hids' => h.names hids hids'

theorem references_relates (h : Impartial db s.registry s.backend model field) (ids : List Int) (name : String) :
    Run.Relates (fun owners owners' => owners' = owners) (Run.references s.backend m ids name)
      (Run.references s.backend (m.apart model field) ids name) :=
  .bind .any fun _ _ _ => .ofExcept fun _ _ hids hids' => h.references hids hids'

theorem parentPaths_relates (h : Impartial db s.registry s.backend model field) (ids : List Int) :
    Run.Relates (fun paths paths' => paths' = paths) (Run.parentPaths s.backend m ids)
      (Run.parentPaths s.backend (m.apart model field) ids) :=
  .bind .any fun _ _ _ => .ofExcept fun _ _ hids hids' => h.parentPaths hids hids'

theorem callHook_relates (h : Impartial db s.registry s.backend model field) {name : String} {hook : Hook}
    (hhook : s.registry.hook? name = some hook) (op : Operator) {right right' : Operand} (hright : right.SameIn db right') :
    Run.Relates (Domain.Over (Operand.SameIn db)) (Run.callHook name hook m op right)
      (Run.callHook name hook (m.apart model field) op right') :=
  .bind .any fun _ _ _ => .ofExcept fun _ _ hd hd' => h.hook hhook hright hd hd'

/-! ### Names and ids -/

theorem idsOfNames_relates (h : Impartial db s.registry s.backend model field) (options : SearchOptions)
    (names : List String) :
    Run.Relates (fun ids ids' => ids' = ids) (idsOfNames s m options names)
      (idsOfNames (s.apart model field) (m.apart model field) options names) := by
  induction names with
  | nil => exact .pure rfl
  | cons name rest ih =>
    refine .bind_same (nameSearch_relates h _ _ _) fun found => ?_
    exact .bind_same ih fun others => .pure rfl

theorem rootIds_relates (h : Impartial db s.registry s.backend model field) (hl : l.Over (Operand.SameIn db) l') :
    Run.Relates (fun ids ids' => ids' = ids) (rootIds s l m) (rootIds (s.apart model field) l' (m.apart model field)) := by
  obtain ⟨left, op, right⟩ := l
  obtain ⟨left', op', right'⟩ := l'
  obtain ⟨rfl, rfl, hright⟩ := hl
  dsimp only at hright
  cases hright with
  | subquery => exact .fail
  | value v =>
    unfold rootIds
    dsimp only
    cases hnames : names? v with
    | some names =>
      refine .bind_same (idsOfNames_relates h _ _) fun ids => ?_
      exact .pure rfl
    | none =>
      cases v with
      | bool b =>
        cases b
        · exact .bind .any fun _ _ _ => .pure rfl
        · exact .fail
      | int n =>
        dsimp only
        cases (Json.int n).int64? with
        | none => exact .fail
        | some id =>
          dsimp only
          split
          · exact .bind .any fun _ _ _ => .pure rfl
          · exact .pure rfl
      | arr items =>
        dsimp only
        cases integers? items with
        | none => exact .fail
        | some ids => exact .pure rfl
      | null => exact .fail
      | float x => exact .fail
      | str text => exact .fail
      | obj members => exact .fail

theorem relatedOf_relates (h : Impartial db s.registry s.backend model field) (hl : l.Over (Operand.SameIn db) l') :
    Run.Relates (Related.SameIn db) (relatedOf s l m) (relatedOf (s.apart model field) l' (m.apart model field)) := by
  obtain ⟨left, op, right⟩ := l
  obtain ⟨left', op', right'⟩ := l'
  obtain ⟨rfl, rfl, hright⟩ := hl
  dsimp only at hright
  cases hright with
  | subquery hsub => exact .pure (.rows hsub)
  | value v =>
    unfold relatedOf
    dsimp only
    cases hnames : names? v with
    | some names =>
      refine .bind_same (nameSearch_relates h _ _ _) fun ids => ?_
      exact .pure (.ids _)
    | none =>
      cases v with
      | int n =>
        dsimp only
        cases (Json.int n).int64? with
        | none => exact .fail
        | some id => exact .pure (.ids _)
      | arr items =>
        dsimp only
        cases integers? (setItems items) with
        | none => exact .fail
        | some ids => exact .pure (.ids _)
      | null => exact .fail
      | bool b => exact .fail
      | float x => exact .fail
      | str text => exact .fail
      | obj members => exact .fail

theorem lineIds_relates (h : Impartial db s.registry s.backend model field) {d d' : Domain}
    (hd : d.Over (Operand.SameIn db) d') :
    Run.Relates (fun ids ids' => ids' = ids) (lineIds s m d) (lineIds (s.apart model field) (m.apart model field) d') :=
  search_relates h hd _

/-! ### Hierarchies -/

theorem nextLevel_relates (h : Impartial db s.registry s.backend model field) (dir : Direction) (parent : String)
    (ids : List Int) :
    Run.Relates (fun ids ids' => ids' = ids) (nextLevel s dir m parent ids)
      (nextLevel (s.apart model field) dir (m.apart model field) parent ids) := by
  cases dir with
  | descendants => exact search_relates h (.refl .refl _) _
  | ancestors => exact references_relates h ids parent

theorem walk_relates (h : Impartial db s.registry s.backend model field) (dir : Direction) (parent : String)
    (rounds : Nat) (visited frontier : IdSet) :
    Run.Relates (fun found found' => found' = found) (walk s dir m parent rounds visited frontier)
      (walk (s.apart model field) dir (m.apart model field) parent rounds visited frontier) := by
  induction rounds generalizing visited frontier with
  | zero =>
    unfold walk
    split
    · exact .pure rfl
    · exact .fail
  | succ rounds ih =>
    unfold walk
    split
    · exact .pure rfl
    · refine .bind_same (nextLevel_relates h dir parent _) fun next => ?_
      exact ih _ _

theorem pathIds_apart (found : IdSet) (paths : List (Int × String)) :
    pathIds (m.apart model field) found paths = pathIds m found paths := by
  induction paths generalizing found with
  | nil => rfl
  | cons entry rest ih =>
    unfold pathIds
    simp only [ih, Model.apart_name]

theorem hierarchy_relates (h : Impartial db s.registry s.backend model field) (dir : Direction) (ids : List Int)
    (parent : Option String) :
    Run.Relates (fun d d' => d' = d) (hierarchy s dir ids m parent)
      (hierarchy (s.apart model field) dir ids (m.apart model field) parent) := by
  unfold hierarchy
  dsimp only
  rw [Model.apart_parentName, Model.apart_parentStore]
  split
  · cases dir with
    | descendants =>
      refine .bind_same (parentPaths_relates h ids) fun paths => ?_
      exact .bind .any fun _ _ _ => .same _
    | ancestors =>
      refine .bind_same (parentPaths_relates h ids) fun paths => ?_
      rw [pathIds_apart]
      refine .bind_same (.same _) fun found => ?_
      exact .bind .any fun _ _ _ => .pure rfl
  · refine .bind_same (walk_relates h dir _ _ _ _) fun found => ?_
    exact .bind .any fun _ _ _ => .pure rfl

/-! ### Searches -/

variable {build build' : QueryBuilder}

theorem findWith_relates {ctx : Context} {name : String} {d d' : Domain} (hd : d.Over (Operand.SameIn db) d')
    (hbuild : Run.Relates (SelectsSame db) (build ctx name d) (build' ctx name d')) :
    Run.Relates (Found.SameIn db) (findWith build ctx name d) (findWith build' ctx name d') := by
  unfold findWith
  refine .bind_same (.ofExcept fun b b' hb hb' => hd.isFalse (fun _ _ h => h.isEmptySet) hb hb') fun b => ?_
  cases b
  · exact .bind hbuild fun q q' hq => .pure (.rows hq.inIdOrder)
  · exact .pure .nothing

theorem hierarchyDomain_relates (h : Impartial db s.registry s.backend model field) (dir : Direction) (ids : List Int)
    (parent : Option String) (target : Target)
    (hbuild : ∀ name, target = .via name → ∀ d, OwnHierarchy d →
      Run.Relates (SelectsSame db) (build s.context m.name d) (build' s.context m.name d)) :
    Run.Relates (Domain.Over (Operand.SameIn db)) (hierarchyDomain s build dir ids m parent target)
      (hierarchyDomain (s.apart model field) build' dir ids (m.apart model field) parent target) := by
  unfold hierarchyDomain
  split
  · exact .pure (.refl .refl _)
  · have hmeets : ∀ s m, (hierarchy s dir ids m parent).Meets OwnHierarchy (Fails s build ⟨"", .eq, .value .null⟩ ⟨m, ""⟩) :=
      fun s m => fails_admits.hierarchy dir ids m parent
    refine .bind ((hierarchy_relates h dir ids parent).and_meets (hmeets s m) (hmeets _ _)) fun d d' hd => ?_
    obtain ⟨rfl, hown, -⟩ := hd
    cases target with
    | ids => exact .pure (.refl .refl _)
    | via name =>
      dsimp only
      rw [Model.apart_name]
      exact .bind (findWith_relates (.refl .refl _) (hbuild name rfl _ hown)) fun found found' hfound =>
        .pure (.ofLeaf name .within hfound.operand)

theorem nameLeaf_relates (h : Impartial db s.registry s.backend model field) (hl : l.Over (Operand.SameIn db) l')
    (names : Json) :
    Run.Relates (Leaf.Over (Operand.SameIn db)) (nameLeaf s l m names)
      (nameLeaf (s.apart model field) l' (m.apart model field) names) := by
  unfold nameLeaf
  rw [hl.op, hl.left]
  refine .bind_same (nameSearch_relates h _ _ _) fun ids => ?_
  exact .pure ⟨rfl, rfl, .value _⟩

theorem allOwners_relates (h : Impartial db s.registry s.backend model field) {inverse inverse' : Field}
    (hname : inverse'.name = inverse.name) (hstore : inverse'.store = inverse.store) :
    Run.Relates (Operand.SameIn db) (allOwners s inverse m)
      (allOwners (s.apart model field) inverse' (m.apart model field)) := by
  unfold allOwners
  rw [hname, hstore, Model.apart_table]
  split
  · exact .pure (.refl _)
  · refine .bind_same (lineIds_relates h (.refl .refl _)) fun lines => ?_
    refine .bind_same (references_relates h _ _) fun owners => ?_
    exact .pure (.value _)

end

/-! ### Two steps -/

/-- The searches for the records of a domain that a leaf may ask for. -/
inductive Searches (s : Setting) (l : Leaf) (p : Place) : Model → Domain → Prop
  | path {f comodel rest} : classify s.registry p.model l = .ok (.path f comodel rest) →
      Searches s l p comodel (.ofLeaf rest l.op l.right)
  | lines {f comodel rest} : classify s.registry p.model l = .ok (.linesPath f comodel rest) →
      Searches s l p comodel (.ofLeaf rest l.op l.right)
  | computed {f comodel rest} : classify s.registry p.model l = .ok (.computed f) → l.path.2 = some rest →
      s.registry.comodel f = .ok comodel → Searches s l p comodel (.ofLeaf rest l.op l.right)
  | hierarchy {m name d} : Follows s l p m (.via name) → OwnHierarchy d → Searches s l p m d
  | linked {f comodel d} : classify s.registry p.model l = .ok (.many2many f comodel) → OwnHierarchy d →
      Searches s l p comodel d

/-- What the two reductions of a leaf become: conditions that say the same, terms of one shape, or leaves past the same
    join; or a leaf past the join through the field on the one side, and on the other side one on the field with the
    records that were found for the rest of the path. -/
inductive StepsPair (db : Database V) (s : Setting) (build' : QueryBuilder) (model field : String) (l l' : Leaf)
    (p p' : Place) : Step → Step → Prop
  | emit {c c'} : SaysSame db p p' c c' → StepsPair db s build' model field l l' p p' (.emit c) (.emit c')
  | stead {t t' : Term Leaf} : Term.Forall₂ (Leaf.Over (Operand.SameIn db)) t t' →
      StepsPair db s build' model field l l' p p' (.requeue (Work.ofDomain p t.spell))
        (.requeue (Work.ofDomain p' t'.spell))
  | follow {l₁ l₁' : Leaf} {link target} : l₁.Over (Operand.SameIn db) l₁' →
      StepsPair db s build' model field l l' p p' (.followTo l₁ p link target)
        (.followTo l₁' p' link (target.apart model field))
  | cross {f comodel rest found} : Crosses s.registry model field p.model l comodel rest →
      Refers (s.registry.apart model field) p'.model field f (comodel.apart model field) →
      classify (s.registry.apart model field) p'.model l' = .ok (.path f (comodel.apart model field) rest) →
      Finds build' s.context comodel.name (.ofLeaf rest l'.op l'.right) found →
      StepsPair db s build' model field l l' p p' (.followTo { l with left := rest } p field comodel)
        (.leaf ⟨field, .within, found.operand⟩ p')

namespace StepsPair
variable {db : Database V} {s : Setting} {build' : QueryBuilder} {model field : String} {l l' : Leaf} {p p' : Place}

theorem leaf {l₁ l₁' : Leaf} (h : l₁.Over (Operand.SameIn db) l₁') :
    StepsPair db s build' model field l l' p p' (.leaf l₁ p) (.leaf l₁' p') := .stead (.leaf h)

/-- A leaf on the id, or on another field, with operands that stand for the same values. -/
theorem compared (name : String) (op : Operator) {right right' : Operand} (h : right.SameIn db right') :
    StepsPair db s build' model field l l' p p' (.leaf ⟨name, op, right⟩ p) (.leaf ⟨name, op, right'⟩ p') :=
  leaf ⟨rfl, rfl, h⟩

theorem literal (b : Bool) :
    StepsPair db s build' model field l l' p p' (.emit (.literal b)) (.emit (.literal b)) := .emit (.literal b)

theorem domain {d d' : Domain} (h : d.Over (Operand.SameIn db) d') :
    Run.Relates (StepsPair db s build' model field l l' p p') (Step.domain d p) (Step.domain d' p') := by
  unfold Step.domain
  refine .bind (R := fun e e' => ∃ t t', e = t.spell ∧ e' = t'.spell ∧ Term.Forall₂ (Leaf.Over (Operand.SameIn db)) t t')
    (.ofExcept fun e e' he he' => h.distributeNot he he') fun e e' hterms => ?_
  obtain ⟨t, t', rfl, rfl, hrel⟩ := hterms
  exact .pure (.stead hrel)

end StepsPair

/-! ### Leaves -/

section
variable {db : Database V} {s : Setting} {build build' : QueryBuilder} {model field : String} {l l' : Leaf} {p p' : Place}

theorem inverseName_eq {m m' : Model} {f : Field} {name name' : String} (h : inverseName m f = .ok name)
    (h' : inverseName m' f = .ok name') : name' = name := by
  unfold inverseName at h h'
  split at h
  · rename_i hname
    rw [hname] at h'
    cases h
    cases h'
    rfl
  · cases h

/-- The field that points back is the same but for its paths. -/
theorem inverseField_apart {m m' comodel : Model} {f inverse inverse' : Field}
    (hf : inverseField m f comodel = .ok inverse) (hf' : inverseField m' f (comodel.apart model field) = .ok inverse') :
    inverse'.name = inverse.name ∧ inverse'.store = inverse.store := by
  unfold inverseField inverseName at hf hf'
  cases hname : f.inverseName with
  | none =>
    simp only [hname] at hf
    cases hf
  | some name =>
    simp only [hname, Model.field?_apart] at hf hf'
    cases hback : comodel.field? name with
    | none =>
      simp only [hback] at hf
      cases hf
    | some back =>
      simp only [hback, Option.map_some] at hf hf'
      cases hf
      cases hf'
      refine ⟨rfl, ?_⟩
      dsimp only
      split <;> rfl

/-- Both leaves are of the kind, the models in it taken from one registry and from the other. -/
structure OfKind (s : Setting) (model field : String) (l l' : Leaf) (p p' : Place) (kind : FieldKind) : Prop where
  left : classify s.registry p.model l = .ok kind
  right : classify (s.apart model field).registry p'.model l' = .ok (kind.apart model field)

/-- A leaf at a place, and the corresponding leaf at the corresponding place; whatever both search for gives the same
    records. -/
structure Counterparts (db : Database V) (s : Setting) (build build' : QueryBuilder) (model field : String) (l l' : Leaf)
    (p p' : Place) : Prop where
  impartial : Impartial db s.registry s.backend model field
  leaf : l.Over (Operand.SameIn db) l'
  place : p'.model = p.model.apart model field
  searches : ∀ ⦃m d d'⦄, Searches s l p m d → Searches (s.apart model field) l' p' (m.apart model field) d' →
    d.Over (Operand.SameIn db) d' → Run.Relates (SelectsSame db) (build s.context m.name d) (build' s.context m.name d')

namespace Counterparts

theorem modelName (h : Counterparts db s build build' model field l l' p p') : p'.model.name = p.model.name := by
  rw [h.place, Model.apart_name]

theorem emitLeaf (h : Counterparts db s build build' model field l l' p p') :
    Run.Relates (StepsPair db s build' model field l l' p p') (emitLeaf s l p)
      (emitLeaf (s.apart model field) l' p') := by
  have htypes : ∀ name, (p'.model.field? name).map (·.type) = (p.model.field? name).map (·.type) := by
    intro name
    rw [h.place, Model.field?_apart, Option.map_map]
    congr 1
    funext f
    dsimp only [Function.comp_apply]
    split <;> rfl
  intro t step t₁ t' step' t₁' hstep hstep'
  obtain ⟨c, hc, rfl⟩ := emitLeaf_gives hstep
  obtain ⟨c', hc', rfl⟩ := emitLeaf_gives hstep'
  exact .emit (plainCondition_same h.leaf htypes hc hc')

/-! ### Fields that refer to many records -/

theorem hierarchyDomain (h : Counterparts db s build build' model field l l' p p') (dir : Direction) (ids : List Int)
    (m : Model) (parent : Option String) (target : Target)
    (htarget : ∀ name, target = .via name →
      Follows s l p m target ∧ Follows (s.apart model field) l' p' (m.apart model field) target) :
    Run.Relates (Domain.Over (Operand.SameIn db)) (Compile.hierarchyDomain s build dir ids m parent target)
      (Compile.hierarchyDomain (s.apart model field) build' dir ids (m.apart model field) parent target) :=
  hierarchyDomain_relates h.impartial dir ids parent target fun name hname d hown =>
    h.searches (.hierarchy (hname ▸ (htarget name hname).1) hown) (.hierarchy (hname ▸ (htarget name hname).2) hown)
      (.refl .refl d)

theorem one2manyHierarchy (h : Counterparts db s build build' model field l l' p p') {f : Field} {comodel : Model}
    (hk : OfKind s model field l l' p p' (.one2many f comodel)) (dir : Direction) {inverse inverse' : Field}
    (hinverse : inverse'.name = inverse.name ∧ inverse'.store = inverse.store) :
    Run.Relates (StepsPair db s build' model field l l' p p') (Compile.one2manyHierarchy s build dir l p f inverse comodel)
      (Compile.one2manyHierarchy (s.apart model field) build' dir l' p' f inverse' (comodel.apart model field)) := by
  unfold Compile.one2manyHierarchy
  refine .bind_same (rootIds_relates h.impartial h.leaf) fun ids => ?_
  rw [h.modelName, Model.apart_name, hinverse.2]
  split
  · rw [h.place]
    exact .bind (h.hierarchyDomain dir _ _ _ _ nofun) fun d d' hd => StepsPair.domain hd
  · split
    · refine .bind (h.hierarchyDomain dir _ _ _ _ fun name hname => ?_) fun d d' hd => StepsPair.domain hd
      cases hname
      exact ⟨.lines hk.left, .lines hk.right⟩
    · refine .bind (h.hierarchyDomain dir _ _ _ _ nofun) fun d d' hd => ?_
      refine .bind_same (lineIds_relates h.impartial hd) fun lines => ?_
      exact StepsPair.domain (.refl .refl _)

theorem reduceOne2many (h : Counterparts db s build build' model field l l' p p') {f : Field} {comodel : Model}
    (hk : OfKind s model field l l' p p' (.one2many f comodel)) :
    Run.Relates (StepsPair db s build' model field l l' p p') (Compile.reduceOne2many s build l p f comodel)
      (Compile.reduceOne2many (s.apart model field) build' l' p' f (comodel.apart model field)) := by
  unfold Compile.reduceOne2many
  refine .bind (.ofExcept fun inverse inverse' hinverse hinverse' => inverseField_apart hinverse hinverse')
    fun inverse inverse' hinverse => ?_
  rw [h.leaf.op, h.leaf.right.isUnset]
  cases Direction.ofOperator? l.op with
  | some dir => exact h.one2manyHierarchy hk dir hinverse
  | none =>
    dsimp only
    split
    · exact .bind (allOwners_relates h.impartial hinverse.1 hinverse.2) fun owners owners' howners =>
        .pure (.compared _ _ howners)
    · refine .bind (relatedOf_relates h.impartial h.leaf) fun related related' hrelated => ?_
      rw [hinverse.2]
      cases hrelated with
      | ids ids =>
        cases ids with
        | nil => exact .pure (.literal _)
        | cons id rest =>
          cases inverse.store with
          | true =>
            dsimp only
            rw [hinverse.1, Model.apart_table]
            exact .pure (.compared _ _ (.refl _))
          | false =>
            dsimp only
            rw [hinverse.1]
            refine .bind_same (references_relates h.impartial _ _) fun owners => ?_
            exact .pure (.compared _ _ (.refl _))
      | @rows sub sub' hsub =>
        cases inverse.store with
        | true =>
          dsimp only
          rw [hinverse.1, Model.apart_table]
          exact .pure (.compared _ _ (.subquery (owners_same (s := .select sub) (t := .select sub') _ _ hsub)))
        | false => exact .fail

theorem many2manyHierarchy (h : Counterparts db s build build' model field l l' p p') {f : Field} {comodel : Model}
    (hk : OfKind s model field l l' p p' (.many2many f comodel)) (dir : Direction) (relation : Relation) :
    Run.Relates (StepsPair db s build' model field l l' p p')
      (Compile.many2manyHierarchy s build dir l p f relation comodel)
      (Compile.many2manyHierarchy (s.apart model field) build' dir l' p' f relation (comodel.apart model field)) := by
  unfold Compile.many2manyHierarchy
  refine .bind_same (rootIds_relates h.impartial h.leaf) fun ids => ?_
  refine .bind ((h.hierarchyDomain dir _ _ _ .ids nofun).and_meets
    (hierarchyDomain_meets (l := l) (p := p) dir _ comodel none .ids)
    (hierarchyDomain_meets (l := l') (p := p') dir _ _ none .ids)) fun d d' hd => ?_
  obtain ⟨hd, hown, hown'⟩ := hd
  have hsearches := h.searches (.linked hk.left hown.toOwn) (.linked hk.right hown'.toOwn) hd
  rw [h.modelName, Model.apart_name]
  refine .bind (findWith_relates hd hsearches) fun found found' hfound => ?_
  split
  · exact .pure (.compared _ _ hfound.operand)
  · exact .pure (.emit (linkedTo_same _ _ _ hfound.ofFound))

theorem reduceMany2many (h : Counterparts db s build build' model field l l' p p') {f : Field} {comodel : Model}
    (hk : OfKind s model field l l' p p' (.many2many f comodel)) :
    Run.Relates (StepsPair db s build' model field l l' p p') (Compile.reduceMany2many s build l p f comodel)
      (Compile.reduceMany2many (s.apart model field) build' l' p' f (comodel.apart model field)) := by
  unfold Compile.reduceMany2many
  rw [h.leaf.op, h.leaf.right.isUnset]
  cases f.relation with
  | none => exact .fail
  | some relation =>
    dsimp only
    cases Direction.ofOperator? l.op with
    | some dir =>
      exact h.many2manyHierarchy hk dir relation
    | none =>
      dsimp only
      split
      · exact .pure (.compared _ _ (.refl _))
      · exact .bind (relatedOf_relates h.impartial h.leaf) fun related related' hrelated =>
          .pure (.emit (linkedTo_same _ _ _ hrelated))

/-! ### The other fields -/

theorem reduceMany2one (h : Counterparts db s build build' model field l l' p p') {comodel : Model}
    (hk : OfKind s model field l l' p p' (.many2one comodel)) :
    Run.Relates (StepsPair db s build' model field l l' p p') (Compile.reduceMany2one s build l l.path.1 p comodel)
      (Compile.reduceMany2one (s.apart model field) build' l' l'.path.1 p' (comodel.apart model field)) := by
  have hright := h.leaf.right
  unfold Compile.reduceMany2one
  rw [h.leaf.op, h.leaf.path]
  cases Direction.ofOperator? l.op with
  | some dir =>
    refine .bind_same (rootIds_relates h.impartial h.leaf) fun ids => ?_
    rw [h.modelName, Model.apart_name]
    split
    · rw [h.place]
      exact .bind (h.hierarchyDomain dir _ _ _ .ids nofun) fun d d' hd => StepsPair.domain hd
    · refine .bind (h.hierarchyDomain dir _ _ _ (.via l.path.1) fun name hname => ?_) fun d d' hd => StepsPair.domain hd
      cases hname
      exact ⟨.reference hk.left, h.leaf.path ▸ .reference hk.right⟩
  | none =>
    dsimp only
    cases hl : l.right with
    | subquery sub =>
      rw [hl] at hright
      cases hl' : l'.right with
      | subquery sub' => exact h.emitLeaf
      | value v =>
        rw [hl'] at hright
        cases hright
    | value v =>
      rw [hl] at hright
      cases hl' : l'.right with
      | subquery sub' =>
        rw [hl'] at hright
        cases hright
      | value v' =>
        rw [hl'] at hright
        cases hright
        dsimp only
        split
        · exact .bind (nameLeaf_relates h.impartial h.leaf _) fun l₁ l₁' hl₁ => .pure (.leaf hl₁)
        · exact h.emitLeaf

theorem reduceIdHierarchy (h : Counterparts db s build build' model field l l' p p') :
    Run.Relates (StepsPair db s build' model field l l' p p') (Compile.reduceIdHierarchy s build l p)
      (Compile.reduceIdHierarchy (s.apart model field) build' l' p') := by
  unfold Compile.reduceIdHierarchy
  rw [h.leaf.op]
  cases Direction.ofOperator? l.op with
  | none => exact .fail
  | some dir =>
    dsimp only
    rw [h.place]
    refine .bind_same (rootIds_relates h.impartial h.leaf) fun ids => ?_
    exact .bind (h.hierarchyDomain dir _ _ _ .ids nofun) fun d d' hd => StepsPair.domain hd

theorem behind (h : Counterparts db s build build' model field l l' p p') (rest : String) :
    Domain.Over (Operand.SameIn db) (.ofLeaf rest l.op l.right) (.ofLeaf rest l'.op l'.right) := by
  rw [h.leaf.op]
  exact .ofLeaf rest l.op h.leaf.right

theorem target (h : Counterparts db s build build' model field l l' p p') (hactive : s.context.activeTest = false)
    {f : Field} {comodel : Model} {rest : String} (hk : OfKind s model field l l' p p' (.path f comodel rest)) :
    Run.Relates (Operand.SameIn db) (reducePath.target s build p f comodel (.ofLeaf rest l.op l.right))
      (reducePath.target (s.apart model field) build' p' f (comodel.apart model field) (.ofLeaf rest l'.op l'.right)) := by
  have hfind := findWith_relates (h.behind rest) (h.searches (.path hk.left) (.path hk.right) (h.behind rest))
  have hcontext : ({ s.context with activeTest := false } : Context) = s.context := by
    rw [← hactive]
  have hcontext' : ({ (s.apart model field).context with activeTest := false } : Context) = s.context := hcontext
  unfold reducePath.target
  rw [Model.apart_name]
  cases f.type with
  | many2one =>
    dsimp only
    rw [hcontext, hcontext']
    exact .bind hfind fun found found' hfound => .pure hfound.operand
  | one2many =>
    refine .bind_same (.ofExcept fun name name' hname hname' => inverseName_eq hname hname') fun name => ?_
    have hany : ((comodel.apart model field).field? name).any (!·.store) = (comodel.field? name).any (!·.store) := by
      rw [Model.field?_apart]
      cases comodel.field? name with
      | none => rfl
      | some back =>
        simp only [Option.map_some, Option.any_some]
        split <;> rfl
    rw [hany]
    split
    · exact .bind_same (lineIds_relates h.impartial (h.behind rest)) fun lines => .pure (.value _)
    · exact .bind hfind fun found found' hfound => .pure hfound.operand
  | _ => exact .bind hfind fun found found' hfound => .pure hfound.operand

theorem reduceComputed (h : Counterparts db s build build' model field l l' p p') {f : Field}
    (hk : OfKind s model field l l' p p' (.computed f)) :
    Run.Relates (StepsPair db s build' model field l l' p p') (Compile.reduceComputed s build l p f)
      (Compile.reduceComputed (s.apart model field) build' l' p' f) := by
  unfold Compile.reduceComputed
  cases f.search with
  | none => exact .bind .any fun _ _ _ => .pure (.literal true)
  | some name =>
    have hhook' : (s.apart model field).registry.hook? name = s.registry.hook? name := rfl
    dsimp only
    rw [hhook']
    cases hhook : s.registry.hook? name with
    | none => exact .bind .any fun _ _ _ => .pure (.literal true)
    | some hook =>
      dsimp only
      rw [h.leaf.path, h.place]
      cases hrest : l.path.2 with
      | none =>
        dsimp only
        rw [h.leaf.op]
        exact .bind (callHook_relates h.impartial hhook l.op h.leaf.right) fun d d' hd => StepsPair.domain hd
      | some rest =>
        refine .bind (R := fun comodel comodel' => s.registry.comodel f = .ok comodel ∧
          comodel' = comodel.apart model field) (.ofExcept fun comodel comodel' hcomodel hcomodel' => ?_)
          fun comodel comodel' hcomodel => ?_
        · rw [show (s.apart model field).registry.comodel f = _ from
            Registry.comodel_apart (f := f) rfl hcomodel] at hcomodel'
          cases hcomodel'
          exact ⟨hcomodel, rfl⟩
        · obtain ⟨hcomodel, rfl⟩ := hcomodel
          rw [Model.apart_name]
          have hsearches := h.searches (.computed hk.left hrest hcomodel)
            (.computed hk.right (h.leaf.path ▸ hrest) (Registry.comodel_apart rfl hcomodel)) (h.behind rest)
          refine .bind (findWith_relates (h.behind rest) hsearches) fun found found' hfound => ?_
          exact .bind (callHook_relates h.impartial hhook .within hfound.operand) fun d d' hd => StepsPair.domain hd

theorem reduceAttachment (h : Counterparts db s build build' model field l l' p p') (f : Field) :
    Run.Relates (StepsPair db s build' model field l l' p p') (Compile.reduceAttachment s l p f)
      (Compile.reduceAttachment (s.apart model field) l' p' f) := by
  unfold Compile.reduceAttachment
  rw [h.leaf.op, h.leaf.right.isTruthy, h.modelName]
  dsimp only
  split
  · exact .pure (.compared _ _ (.refl _))
  · exact .pure (.compared _ _ (.refl _))
  · exact .bind .any fun _ _ _ => .pure (.literal true)

theorem widenDate (h : Counterparts db s build build' model field l l' p p') :
    widenDate? l = none ∧ widenDate? l' = none ∨
      ∃ l₁ l₁', widenDate? l = some l₁ ∧ widenDate? l' = some l₁' ∧ l₁.Over (Operand.SameIn db) l₁' := by
  obtain ⟨left, op, right⟩ := l
  obtain ⟨left', op', right'⟩ := l'
  obtain ⟨rfl, rfl, hright⟩ := h.leaf
  dsimp only at hright
  cases hright with
  | subquery => exact .inl ⟨rfl, rfl⟩
  | value v =>
    cases hwidened : widenDate? ⟨left', op', .value v⟩ with
    | none => exact .inl ⟨rfl, rfl⟩
    | some l₁ => exact .inr ⟨l₁, l₁, rfl, rfl, rfl, rfl, .refl _⟩

/-! ### All leaves -/

/-- A path through a field that is searched apart on both sides. -/
theorem reducePath (h : Counterparts db s build build' model field l l' p p') (hactive : s.context.activeTest = false)
    {f : Field} {comodel : Model} {rest : String} (hk : OfKind s model field l l' p p' (.path f comodel rest)) :
    Run.Relates (StepsPair db s build' model field l l' p p') (Compile.reducePath s build l l.path.1 rest p f comodel)
      (Compile.reducePath (s.apart model field) build' l' l'.path.1 rest p' f (comodel.apart model field)) := by
  unfold Compile.reducePath
  rw [h.leaf.path]
  exact .bind (h.target hactive hk) fun right right' hright => .pure (.compared _ _ hright)

/-- A path through the field that is searched apart on the second side only. -/
theorem cross (h : Counterparts db s build build' model field l l' p p') (hactive : s.context.activeTest = false)
    {f : Field} {comodel : Model} {rest : String} (hcross : Crosses s.registry model field p.model l comodel rest)
    (hrefers : Refers (s.registry.apart model field) p'.model field f (comodel.apart model field))
    (hpath : classify (s.registry.apart model field) p'.model l' = .ok (.path f (comodel.apart model field) rest)) :
    Run.Relates (StepsPair db s build' model field l l' p p')
      (Pure.pure (Step.followTo { l with left := rest } p l.path.1 comodel))
      (Compile.reducePath (s.apart model field) build' l' l'.path.1 rest p' f (comodel.apart model field)) := by
  have hhead : l.path.1 = field := by rw [hcross.path]
  have hcontext : ({ (s.apart model field).context with activeTest := false } : Context) = s.context := by
    rw [← hactive]
    rfl
  intro t step t₁ t' step' t₁' hstep hstep'
  cases hstep
  unfold Compile.reducePath at hstep'
  obtain ⟨operand, t₂, htarget, hpure⟩ := Run.gives_bind.mp hstep'
  cases hpure
  unfold reducePath.target at htarget
  rw [hrefers.type] at htarget
  obtain ⟨found, t₃, hfound, hpure⟩ := Run.gives_bind.mp htarget
  cases hpure
  rw [hcontext, Model.apart_name] at hfound
  rw [h.leaf.path, hhead]
  exact .cross hcross hrefers hpath
    ((findWith_meets (s := s) (l := l) (p := p) s.context comodel.name (.ofLeaf rest l'.op l'.right)).gives hfound)

theorem linesPath (h : Counterparts db s build build' model field l l' p p') {f : Field} {comodel : Model} {rest : String}
    (hk : OfKind s model field l l' p p' (.linesPath f comodel rest)) :
    Run.Relates (StepsPair db s build' model field l l' p p') (reduceKind s build l p (.linesPath f comodel rest))
      (reduceKind (s.apart model field) build' l' p' (.linesPath f (comodel.apart model field) rest)) := by
  unfold reduceKind
  refine .bind_same (.ofExcept fun name name' hname hname' => inverseName_eq hname hname') fun name => ?_
  rw [Model.apart_name]
  exact .bind (h.searches (.lines hk.left) (.lines hk.right) (h.behind rest)) fun q q' hq =>
    .pure (.compared _ _ (.subquery (hq.subselect name)))

theorem reduceKind (h : Counterparts db s build build' model field l l' p p') (hactive : s.context.activeTest = false)
    {kind : FieldKind} (hk : OfKind s model field l l' p p' kind) :
    Run.Relates (StepsPair db s build' model field l l' p p') (Compile.reduceKind s build l p kind)
      (Compile.reduceKind (s.apart model field) build' l' p' (kind.apart model field)) := by
  cases kind with
  | inherited parent link => exact .pure (.follow h.leaf)
  | idHierarchy => exact h.reduceIdHierarchy
  | joinedPath comodel rest =>
    unfold Compile.reduceKind FieldKind.apart
    dsimp only
    rw [h.leaf.path]
    exact .pure (.follow (h.leaf.with_left rest))
  | linesPath f comodel rest => exact h.linesPath hk
  | path f comodel rest => exact h.reducePath hactive hk
  | computed f => exact h.reduceComputed hk
  | one2many f comodel => exact h.reduceOne2many hk
  | many2many f comodel => exact h.reduceMany2many hk
  | many2one comodel => exact h.reduceMany2one hk
  | attachment f => exact h.reduceAttachment f
  | datetime =>
    unfold Compile.reduceKind FieldKind.apart
    dsimp only
    rcases h.widenDate with ⟨hnone, hnone'⟩ | ⟨l₁, l₁', hsome, hsome', hl₁⟩
    · rw [hnone, hnone']
      exact h.emitLeaf
    · rw [hsome, hsome']
      exact .pure (.leaf hl₁)
  | translatable =>
    unfold Compile.reduceKind FieldKind.apart
    dsimp only
    rw [h.leaf.right.isTruthy]
    split
    · exact .bind (R := SaysSame db p p') (.ofExcept fun c c' hc hc' => translatedCondition_same h.leaf hc hc')
        fun c c' hc => .pure (.emit hc)
    · exact h.emitLeaf
  | plain => exact h.emitLeaf

/-- What a leaf and its counterpart become. -/
theorem reduce (h : Counterparts db s build build' model field l l' p p') (hr : s.registry.Built)
    (hjoins : s.registry.JoinsThrough model field) (hm : s.registry.Has p.model) (hactive : s.context.activeTest = false) :
    Run.Relates (StepsPair db s build' model field l l' p p') (Compile.reduce s build l p)
      (Compile.reduce (s.apart model field) build' l' p') := by
  unfold Compile.reduce
  rw [h.leaf.op, h.leaf.right.isUnset]
  split
  · split
    · exact .pure (.literal true)
    · exact .pure (.leaf (h.leaf.with_op .eq))
  · refine .bind (R := fun kind kind' => classify s.registry p.model l = .ok kind ∧
      classify (s.registry.apart model field) (p.model.apart model field) l' = .ok kind')
      (.ofExcept fun kind kind' hk hk' => ⟨hk, h.place ▸ hk'⟩) fun kind kind' hkinds => ?_
    obtain ⟨hk, hk'⟩ := hkinds
    rcases classify_apart hr hjoins hm h.leaf.left h.leaf.op hk with hsame | ⟨f, comodel, rest, hcross, rfl, hrefers, hpath⟩
    · cases hsame.symm.trans hk'
      exact h.reduceKind hactive ⟨hk, h.place ▸ hsame⟩
    · cases hpath.symm.trans hk'
      exact h.cross hactive hcross (h.place ▸ hrefers) (h.place ▸ hpath)

end Counterparts
end
end Compile
end RecordFilter
