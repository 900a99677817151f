import RecordFilter.Proofs.Compile.Settling
import RecordFilter.Proofs.Domain.Alike

/-! Leaves that differ at most in what their strings say, compiled without a database and without search
    hooks: what the one becomes the other becomes too, but for the values that are bound. -/

namespace RecordFilter
open Sql

namespace Run
variable {α β γ δ : Type} {R : α → β → Prop} {S : γ → δ → Prop} {x : Run α} {x' : Run β}

/-- Whatever the first run gives, the second one gives from every trace something that is related to it. -/
def Carries (R : α → β → Prop) (x : Run α) (x' : Run β) : Prop :=
  ∀ t a t₁, x.Gives t a t₁ → ∃ a', x'.Yields a' ∧ R a a'

namespace Carries

theorem pure {a : α} {a' : β} (h : R a a') : Carries R (Pure.pure a) (Pure.pure a') := fun _ _ _ hgives => by
  cases hgives
  exact ⟨a', .pure a', h⟩

theorem bind {f : α → Run γ} {f' : β → Run δ} (hx : Carries R x x') (hf : ∀ a a', R a a' → Carries S (f a) (f' a')) :
    Carries S (x >>= f) (x' >>= f') := by
  intro t c t₂ hgives
  obtain ⟨a, t₁, ha, hc⟩ := gives_bind.mp hgives
  obtain ⟨a', hyields, hrel⟩ := hx t a t₁ ha
  obtain ⟨c', hyields', hrel'⟩ := hf a a' hrel t₁ c t₂ hc
  exact ⟨c', .bind hyields hyields', hrel'⟩

theorem of_yields {a : α} {a' : β} (hx : x.Yields a) (hx' : x'.Yields a') (h : R a a') : Carries R x x' := by
  intro t b t₁ hgives
  obtain ⟨t₂, h₂⟩ := hx t
  cases hgives.symm.trans h₂
  exact ⟨a', hx', h⟩

/-- A run that gives nothing. -/
theorem silent {E : Stop → Prop} (h : x.Meets (fun _ => False) E) : Carries R x x' := fun _ _ _ hgives =>
  (h.gives hgives).elim

theorem fail {e : Error} : Carries R (Run.fail e : Run α) x' := silent (E := fun _ => True) (.fail trivial)

theorem ofExcept {y : Except Error α} {y' : Except Error β} (h : RecordFilter.Carries R y y') :
    Carries R (Run.ofExcept y) (Run.ofExcept y') := by
  cases y with
  | error e => exact fail
  | ok a =>
    obtain ⟨a', rfl, ha⟩ := h a rfl
    exact pure ha

theorem log (e e' : Log.Event) (fields fields' : List (String × String)) :
    Carries (fun _ _ => True) (Run.log e fields) (Run.log e' fields') := fun _ _ _ _ => ⟨(), .log e' fields', trivial⟩

end Carries

/-! ### No database -/

theorem search_offline (m : Model) (d : Domain) (options : SearchOptions) :
    (search .offline m d options).Meets (fun _ => False) (fun _ => True) :=
  .bind (.record _) fun _ _ => .ofExcept (fun _ h => by cases h) fun _ _ => trivial

theorem nameSearch_offline (m : Model) (name : Json) (op : Operator) (options : SearchOptions) :
    (nameSearch .offline m name op options).Meets (fun _ => False) (fun _ => True) :=
  .bind (.record _) fun _ _ => .ofExcept (fun _ h => by cases h) fun _ _ => trivial

theorem references_offline (m : Model) (ids : List Int) (field : String) :
    (references .offline m ids field).Meets (fun _ => False) (fun _ => True) :=
  .bind (.record _) fun _ _ => .ofExcept (fun _ h => by cases h) fun _ _ => trivial

theorem parentPaths_offline (m : Model) (ids : List Int) :
    (parentPaths .offline m ids).Meets (fun _ => False) (fun _ => True) :=
  .bind (.record _) fun _ _ => .ofExcept (fun _ h => by cases h) fun _ _ => trivial

/-- What comes after a run that gives nothing does not matter. -/
theorem Meets.silent {f : α → Run γ} {P : γ → Prop} (h : x.Meets (fun _ => False) (fun _ => True)) :
    (x >>= f).Meets P (fun _ => True) := h.bind fun _ h => h.elim

end Run

namespace Compile

/-! ### Lists of values -/

/-- Two bound values that differ at most in what a text says. -/
inductive ParamAlike : Param → Param → Prop
  | refl (p : Param) : ParamAlike p p
  | text (s s' : String) : ParamAlike (.text s) (.text s')

theorem hasBool_alike (b : Bool) {ps ps' : List Param} (h : List.Forall₂ ParamAlike ps ps') :
    hasBool b ps' = hasBool b ps := by
  induction h with
  | nil => rfl
  | @cons p _ _ _ hp _ ih =>
    cases hp with
    | refl => cases p <;> simp only [hasBool, ih]
    | text => exact ih

namespace Wanted

/-- Two lists that ask for the same but for what texts say. -/
structure Alike (w w' : Wanted) : Prop where
  params : List.Forall₂ ParamAlike w.params w'.params
  unset : w'.unset = w.unset

variable {w w' : Wanted}

theorem Alike.add (h : w.Alike w') {p p' : Param} (hp : ParamAlike p p') : (w.add p).Alike (w'.add p') :=
  ⟨List.rel_append h.params (.cons hp .nil), h.unset⟩

theorem Alike.addUnset (h : w.Alike w') : w.addUnset.Alike w'.addUnset := ⟨h.params, rfl⟩

theorem Alike.addBool (h : w.Alike w') (b : Bool) : (w.addBool b).Alike (w'.addBool b) := by
  unfold Wanted.addBool
  rw [hasBool_alike b h.params]
  split
  · exact h
  · exact h.add (.refl _)

theorem Alike.addItem? (h : w.Alike w') (isBoolean : Bool) {v v' : Json} (hv : v.ItemAlike v') :
    Option.Rel Alike (w.addItem? isBoolean v) (w'.addItem? isBoolean v') := by
  cases hv with
  | str => exact .some (h.add (.text _ _))
  | refl =>
    cases v with
    | null => exact .some h.addUnset
    | bool b =>
      cases isBoolean <;> cases b
      · exact .some h.addUnset
      · exact .some (h.add (.refl _))
      · exact .some (h.addUnset.addBool _)
      · exact .some (h.addBool _)
    | int => exact .some (h.add (.refl _))
    | float => exact .some (h.add (.refl _))
    | str => exact .some (h.add (.refl _))
    | arr => exact .none
    | obj => exact .none

theorem Alike.addItems? (h : w.Alike w') (isBoolean : Bool) {items items' : List Json}
    (hitems : List.Forall₂ Json.ItemAlike items items') :
    Option.Rel Alike (w.addItems? isBoolean items) (w'.addItems? isBoolean items') := by
  induction hitems generalizing w w' with
  | nil => exact .some h
  | cons hitem _ ih =>
    have hadd := h.addItem? isBoolean hitem
    unfold Wanted.addItems?
    generalize w.addItem? isBoolean _ = added at hadd
    generalize w'.addItem? isBoolean _ = added' at hadd
    cases hadd with
    | none => exact .none
    | some hw => exact ih hw

theorem ofItems?_alike (isBoolean : Bool) {items items' : List Json}
    (hitems : List.Forall₂ Json.ItemAlike items items') :
    Option.Rel Alike (ofItems? isBoolean items) (ofItems? isBoolean items') :=
  Alike.addItems? ⟨.nil, rfl⟩ isBoolean hitems

theorem Alike.condition (h : w.Alike w') (left : Expr) (column : Column) (positive : Bool) :
    CondAlike (w.condition left column positive) (w'.condition left column positive) := by
  obtain ⟨params, unset⟩ := w
  obtain ⟨params', unset'⟩ := w'
  obtain ⟨hparams, rfl⟩ := h
  have hmember : ∀ positive, CondAlike (.group (.member left positive (.params params)))
      (.group (.member left positive (.params params'))) := fun positive =>
    .group (.member left positive (params_sameShape hparams.length_eq))
  cases hparams with
  | nil => exact .refl _
  | cons _ _ =>
    cases positive <;> cases unset'
    · exact .or (hmember false) (.refl _)
    · exact .and (hmember false) (.refl _)
    · exact hmember true
    · exact .or (hmember true) (.refl _)

/-- The conditions of two lists of values. -/
theorem list_alike {items items' : List Json} (hitems : List.Forall₂ Json.ItemAlike items items')
    (isBoolean : Bool) (left : Expr) (column : Column) (positive : Bool) (e e' : Error) :
    Carries CondAlike
      (match ofItems? isBoolean items with
        | some w => Except.ok (w.condition left column positive)
        | none => Except.error e)
      (match ofItems? isBoolean items' with
        | some w => Except.ok (w.condition left column positive)
        | none => Except.error e') := by
  have hwanted := ofItems?_alike isBoolean hitems
  generalize ofItems? isBoolean items = wanted at hwanted
  generalize ofItems? isBoolean items' = wanted' at hwanted
  cases hwanted with
  | none => exact .error
  | some hw => exact .ok (hw.condition left column positive)

end Wanted

/-! ### Conditions on plain columns -/

section
variable {l l' : Leaf} {v v' : Json} {column : Column} {isBoolean unaccent : Bool}

theorem inValues_alike (hl : l.Alike l') (hv : v.Alike v') :
    Carries CondAlike (inValues l column v isBoolean) (inValues l' column v' isBoolean) := by
  unfold inValues
  dsimp only
  rw [hl.op]
  cases hv with
  | str => exact .error
  | arr hitems => exact Wanted.list_alike hitems _ _ _ _ _ _
  | refl =>
    split
    · exact .ok (.refl _)
    · exact Wanted.list_alike (List.forall₂_same.mpr fun v _ => .refl v) _ _ _ _ _ _
    · exact .error

/-- A value is bound, in a pattern or as it is, if and only if a value alike is. -/
theorem param?_isSome (hv : v.Alike v') (contains : Bool) :
    (if contains then some (containsPattern v') else Param.ofJson? v').isSome =
      (if contains then some (containsPattern v) else Param.ofJson? v).isSome := by
  cases contains
  · cases hv <;> rfl
  · rfl

theorem comparison_alike (hl : l.Alike l') (hv : v.Alike v') :
    Carries CondAlike (comparison l column v unaccent) (comparison l' column v' unaccent) := by
  have hparam := param?_isSome hv l.op.isContains
  unfold comparison
  rw [hl.op, hv.isTruthy]
  dsimp only
  split
  · exact .error
  · rename_i p hp
    rw [hp] at hparam
    obtain ⟨p', hp'⟩ := Option.isSome_iff_exists.mp hparam
    rw [hp']
    have hbase : ∀ x u, CondAlike (.group (.compare x l.op p u)) (.group (.compare x l.op p' u)) := fun x u =>
      .group (.compare x l.op p p' u)
    dsimp only
    split
    · exact .ok (.or (hbase _ _) (.refl _))
    · exact .ok (hbase _ _)

theorem equality_eq_comparison (hunset : v.isUnset = false) (htrue : v ≠ .bool true) :
    equality l column v isBoolean unaccent = comparison l column v unaccent := by
  unfold equality
  rw [hunset]
  split
  · contradiction
  · exact absurd rfl htrue
  · contradiction
  · contradiction
  · contradiction
  · rfl

theorem alike_cases (hv : v.Alike v') :
    v = v' ∨ (v.isUnset = false ∧ v ≠ .bool true) ∧ (v'.isUnset = false ∧ v' ≠ .bool true) := by
  cases hv with
  | refl => exact Or.inl rfl
  | str => exact Or.inr ⟨⟨rfl, by simp⟩, rfl, by simp⟩
  | arr => exact Or.inr ⟨⟨rfl, by simp⟩, rfl, by simp⟩

theorem literalLeaf_alike (hl : l.Alike l') (hright : l.right = .value v) (hright' : l'.right = .value v') :
    Carries CondAlike (literalLeaf l column v isBoolean unaccent) (literalLeaf l' column v' isBoolean unaccent) := by
  have hv : v.Alike v' := by
    have h := hl.right
    rw [hright, hright'] at h
    cases h with
    | value h => exact h
  rcases alike_cases hv with rfl | ⟨⟨hunset, htrue⟩, hunset', htrue'⟩
  · obtain rfl : l = l' := by
      obtain ⟨left, op, right⟩ := l
      obtain ⟨left', op', right'⟩ := l'
      obtain ⟨rfl, rfl, -⟩ := hl
      subst hright
      subst hright'
      rfl
    exact .refl CondAlike.refl _
  · have equality : ∀ {l l' : Leaf}, l.Alike l' → Carries CondAlike (equality l column v isBoolean unaccent)
        (equality l' column v' isBoolean unaccent) := fun hl => by
      rw [equality_eq_comparison hunset htrue, equality_eq_comparison hunset' htrue']
      exact comparison_alike hl hv
    unfold literalLeaf
    rw [hl.op, hunset, hunset']
    split
    · exact inValues_alike hl hv
    · exact inValues_alike hl hv
    · exact .error
    · exact .error
    · cases isBoolean
      · exact comparison_alike (hl.with_op .eq) hv
      · exact equality (hl.with_op .eq)
    · cases isBoolean
      · exact comparison_alike hl hv
      · exact equality hl
    · cases isBoolean
      · exact comparison_alike hl hv
      · exact equality hl
    · exact comparison_alike hl hv

theorem inSubquery_alike (hl : l.Alike l') {sub sub' : Select} (hsub : SameShape sub.fragment sub'.fragment) :
    Carries CondAlike (inSubquery l column sub) (inSubquery l' column sub') := by
  unfold inSubquery
  rw [hl.op]
  split
  · exact .ok (.group (.member _ true (select_sameShape hsub)))
  · exact .ok (.group (.member _ false (select_sameShape hsub)))
  · exact .error

theorem plainCondition_alike (hl : l.Alike l') (p : Place) (ctx : Context) :
    Carries CondAlike (plainCondition l p ctx) (plainCondition l' p ctx) := by
  have hright := hl.right
  unfold plainCondition
  rw [hl.left]
  split
  · exact .error
  · generalize hr : l.right = r at hright
    generalize hr' : l'.right = r' at hright
    cases hright with
    | value => exact literalLeaf_alike hl hr hr'
    | subquery hsub => exact inSubquery_alike hl hsub

theorem translatedCondition_alike (hl : l.Alike l') (p : Place) (ctx : Context) :
    Carries CondAlike (translatedCondition l p ctx) (translatedCondition l' p ctx) := by
  have hright := hl.right
  unfold translatedCondition
  rw [hl.left, hl.op]
  generalize l.right = r at hright
  generalize l'.right = r' at hright
  cases hright with
  | subquery => exact .error
  | @value v v' hv =>
    dsimp only
    split
    · cases hv with
      | str => exact .error
      | arr hitems => exact Wanted.list_alike hitems _ _ _ _ _ _
      | refl =>
        split
        · exact Wanted.list_alike (List.forall₂_same.mpr fun v _ => .refl v) _ _ _ _ _ _
        · exact .error
    · have hparam := param?_isSome hv l.op.isContains
      split
      · exact .error
      · rename_i bound hbound
        rw [hbound] at hparam
        obtain ⟨bound', hbound'⟩ := Option.isSome_iff_exists.mp hparam
        rw [hbound']
        dsimp only
        have hbase : ∀ x u, CondAlike (.group (.compare x l.op bound u)) (.group (.compare x l.op bound' u)) :=
          fun x u => .group (.compare x l.op bound bound' u)
        split
        · exact .ok (.or (hbase _ _) (.refl _))
        · exact .ok (hbase _ _)

end
/-! ### Classification -/

theorem classify_alike (r : Registry) (m : Model) {l l' : Leaf} (hl : l.Alike l') :
    Carries (· = ·) (classify r m l) (classify r m l') := by
  have path : ∀ f rest, Carries (· = ·) (classifyPath r m l f rest) (classifyPath r m l' f rest) := fun f rest => by
    unfold classifyPath
    split
    · exact .ok rfl
    split
    · exact .error
    · exact .refl (fun _ => rfl) _
  unfold classify
  rw [hl.path, hl.op]
  dsimp only
  split
  · exact .error
  · exact .ok rfl
  · split
    · exact path _ _
    · exact .refl (fun _ => rfl) _

/-! ### Names and ids -/

/-- No database is there and no search hook. -/
structure Setting.Offline (s : Setting) : Prop where
  backend : s.backend = .offline
  hooks : ∀ name, s.registry.hook? name = none

section
variable {items items' : List Json} {v v' : Json}

theorem texts?_isSome (h : List.Forall₂ Json.ItemAlike items items') :
    (texts? items').isSome = (texts? items).isSome := by
  induction h with
  | nil => rfl
  | @cons v _ _ _ hv _ ih =>
    cases hv with
    | str => simpa only [texts?, Option.isSome_map] using ih
    | refl =>
      cases v with
      | str => simpa only [texts?, Option.isSome_map] using ih
      | _ => rfl

theorem names?_isSome (h : v.Alike v') : (names? v').isSome = (names? v).isSome := by
  cases h with
  | refl => rfl
  | str => rfl
  | arr hitems =>
    cases hitems with
    | nil => rfl
    | cons hitem hrest => exact texts?_isSome (.cons hitem hrest)

theorem names?_eq_none (h : v.Alike v') (hnone : names? v = none) : names? v' = none := by
  rw [← Option.isSome_eq_false_iff.trans Option.isNone_iff_eq_none, names?_isSome h, hnone]
  rfl

theorem names?_ne_nil {names : List String} (h : names? v = some names) : names ≠ [] := by
  rintro rfl
  unfold names? at h
  split at h
  · cases h
  · rename_i item rest
    cases item with
    | str s =>
      rw [texts?, Option.map_eq_some_iff] at h
      obtain ⟨_, -, h⟩ := h
      cases h
    | _ => cases h
  · cases h

/-- A text is no integer, whatever it says. -/
theorem integers?_alike (h : List.Forall₂ Json.ItemAlike items items') : integers? items' = integers? items := by
  induction h with
  | nil => rfl
  | cons hv _ ih => cases hv <;> simp only [integers?, ih, Json.int64?]

theorem setItems_alike (h : List.Forall₂ Json.ItemAlike items items') :
    List.Forall₂ Json.ItemAlike (setItems items) (setItems items') :=
  List.rel_filter (fun _ _ hv => by simp only [hv.isUnset]) h

end

section
variable {s : Setting} {build build' : QueryBuilder} {l l' : Leaf} {p : Place}

theorem idsOfNames_silent (hs : s.Offline) (m : Model) (options : SearchOptions) {names : List String}
    (h : names ≠ []) : (idsOfNames s m options names).Meets (fun _ => False) (fun _ => True) := by
  obtain ⟨name, rest, rfl⟩ := List.exists_cons_of_ne_nil h
  unfold idsOfNames
  rw [hs.backend]
  exact (Run.nameSearch_offline m _ _ options).silent

/-- Ids are given as they are; names cannot be looked up. -/
theorem rootIds_alike (hs : s.Offline) (hl : l.Alike l') (m : Model) :
    Run.Carries (· = ·) (rootIds s l m) (rootIds s l' m) := by
  have hright := hl.right
  unfold rootIds
  generalize l.right = r at hright
  generalize l'.right = r' at hright
  cases hright with
  | subquery => exact .fail
  | @value v v' hv =>
    dsimp only
    -- Names are found by the database, so with names neither run gives ids.
    cases hnames : names? v with
    | some names => exact .silent (idsOfNames_silent hs m _ (names?_ne_nil hnames)).silent
    | none =>
      rw [names?_eq_none hv hnames]
      have none : Run.Carries (· = ·) (noticeNoId l >>= fun _ => pure []) (noticeNoId l' >>= fun _ => pure ([] : List Int)) :=
        .bind (.log _ _ _ _) fun _ _ _ => .pure rfl
      cases hv with
      | str => cases hnames
      | arr hitems =>
        dsimp only
        rw [integers?_alike hitems]
        split
        · exact .pure rfl
        · exact .fail
      | refl =>
        cases v with
        | bool b =>
          cases b
          · exact none
          · exact .fail
        | int n =>
          dsimp only
          split
          · split
            · exact none
            · exact .pure rfl
          · exact .fail
        | arr items =>
          dsimp only
          split
          · exact .pure rfl
          · exact .fail
        | _ => exact .fail

/-! ### Hierarchies -/

theorem walk_silent (hs : s.Offline) (dir : Direction) (m : Model) (parent : String) (rounds : Nat)
    (visited : IdSet) {frontier : IdSet} (h : frontier.toList.isEmpty = false) :
    (walk s dir m parent rounds visited frontier).Meets (fun _ => False) (fun _ => True) := by
  cases rounds with
  | zero =>
    unfold walk
    rw [h]
    exact .fail trivial
  | succ rounds =>
    unfold walk
    rw [h]
    refine Run.Meets.silent ?_
    unfold nextLevel
    rw [hs.backend]
    cases dir
    · exact Run.search_offline _ _ _
    · exact Run.references_offline _ _ _

theorem hierarchy_silent (hs : s.Offline) (dir : Direction) {ids : List Int} (h : ids.isEmpty = false) (m : Model)
    (parent : Option String) : (hierarchy s dir ids m parent).Meets (fun _ => False) (fun _ => True) := by
  unfold hierarchy
  dsimp only
  split
  · have paths : (Run.parentPaths s.backend m ids).Meets (fun _ => False) (fun _ => True) := by
      rw [hs.backend]
      exact Run.parentPaths_offline m ids
    cases dir
    · exact paths.silent
    · exact paths.silent
  · refine Run.Meets.silent (walk_silent hs dir m _ _ _ ?_)
    obtain ⟨id, rest, rfl⟩ := List.exists_cons_of_ne_nil (List.isEmpty_eq_false_iff.mp h)
    have hmem : id ∈ (IdSet.ofList (id :: rest)).toList := IdSet.mem_ofList.mpr List.mem_cons_self
    rw [List.isEmpty_eq_false_iff]
    exact List.ne_nil_of_mem hmem

/-- Without a database, the only hierarchy that is known is that of no records. -/
theorem hierarchyDomain_alike (hs : s.Offline) (dir : Direction) (ids : List Int) (m : Model)
    (parent : Option String) (target : Target) :
    Run.Carries (fun d d' => d = .never ∧ d' = .never) (hierarchyDomain s build dir ids m parent target)
      (hierarchyDomain s build' dir ids m parent target) := by
  unfold hierarchyDomain
  cases h : ids.isEmpty with
  | true => exact .pure ⟨rfl, rfl⟩
  | false => exact .silent (hierarchy_silent hs dir h m parent).silent

/-! ### Searches -/

/-- Two builders that give queries alike for domains alike. -/
def BuildsAlike (build build' : QueryBuilder) : Prop :=
  ∀ ctx model {d d' : Domain}, d.Alike d' → Run.Carries QueryAlike (build ctx model d) (build' ctx model d')

/-- Two searches that find the same but for what texts say. -/
inductive Found.Alike : Found → Found → Prop
  | nothing : Alike .nothing .nothing
  | rows {q q' : Query} : QueryAlike q q' → Alike (.rows q) (.rows q')

theorem Found.Alike.operand {found found' : Found} (h : found.Alike found') : found.operand.Alike found'.operand := by
  cases h with
  | nothing => exact .refl _
  | rows hq => exact .subquery hq.ids

theorem findWith_alike (hbuild : BuildsAlike build build') (ctx : Context) (model : String) {d d' : Domain}
    (hd : d.Alike d') : Run.Carries Found.Alike (findWith build ctx model d) (findWith build' ctx model d') := by
  unfold findWith
  refine .bind (.ofExcept hd.isFalse) fun b b' hb => ?_
  subst hb
  cases b
  · refine .bind (hbuild ctx model hd) fun q q' hq => .pure (.rows ?_)
    exact ⟨hq.table, hq.tableAlias, hq.joins, hq.conditions, by simp only [inIdOrder, hq.window, hq.tableAlias]⟩
  · exact .pure .nothing

/-! ### What leaves become -/

/-- Two tokens at one place, alike. -/
structure Work.Alike (w w' : Work) : Prop where
  token : w.token.Alike w'.token
  place : w'.place = w.place

/-- Two steps that differ at most in the values that are bound. -/
inductive Step.Alike : Step → Step → Prop
  | emit {c c' : Cond} : CondAlike c c' → Alike (.emit c) (.emit c')
  | requeue {items items' : List Work} : List.Forall₂ Work.Alike items items' → Alike (.requeue items) (.requeue items')
  | follow (join : Join) {item item' : Work} : item.Alike item' → Alike (.follow join item) (.follow join item')

theorem Step.alike_leaf (hl : l.Alike l') (p : Place) : (Step.leaf l p).Alike (Step.leaf l' p) :=
  .requeue (.cons ⟨.leaf hl, rfl⟩ .nil)

/-- A leaf on the same field, by the same operator, compared with an operand alike. -/
theorem Step.alike_operand (left : String) (op : Operator) {r r' : Operand} (hr : r.Alike r') (p : Place) :
    (Step.leaf ⟨left, op, r⟩ p).Alike (Step.leaf ⟨left, op, r'⟩ p) :=
  .requeue (.cons ⟨.leaf ⟨rfl, rfl, hr⟩, rfl⟩ .nil)

theorem Step.alike_followTo (hl : l.Alike l') (p : Place) (link : String) (target : Model) :
    (Step.followTo l p link target).Alike (Step.followTo l' p link target) := .follow _ ⟨.leaf hl, rfl⟩

theorem Work.alike_ofDomain (p : Place) {d d' : Domain} (hd : d.Alike d') :
    List.Forall₂ Work.Alike (Work.ofDomain p d) (Work.ofDomain p d') :=
  List.rel_map (fun _ _ htoken => ⟨htoken, rfl⟩) hd

theorem Step.alike_domain (p : Place) {d d' : Domain} (hd : d.Alike d') :
    Run.Carries Step.Alike (Step.domain d p) (Step.domain d' p) :=
  .bind (.ofExcept hd.distributeNot) fun _ _ he => .pure (.requeue (Work.alike_ofDomain p he))

theorem hierarchyStep_alike (hs : s.Offline) (dir : Direction) (ids : List Int) (m : Model)
    (parent : Option String) (target : Target) :
    Run.Carries Step.Alike (hierarchyDomain s build dir ids m parent target >>= (Step.domain · p))
      (hierarchyDomain s build' dir ids m parent target >>= (Step.domain · p)) :=
  .bind (hierarchyDomain_alike hs dir ids m parent target) fun _ _ hd => by
    obtain ⟨rfl, rfl⟩ := hd
    exact Step.alike_domain p (.refl _)

theorem emitLeaf_alike (hl : l.Alike l') : Run.Carries Step.Alike (emitLeaf s l p) (emitLeaf s l' p) := by
  cases hc : plainCondition l p s.context with
  | error e =>
    unfold emitLeaf
    rw [hc]
    exact .silent (.silent (.fail trivial))
  | ok c =>
    obtain ⟨c', hc', halike⟩ := plainCondition_alike hl p s.context c hc
    exact .of_yields (emitLeaf_yields hc) (emitLeaf_yields hc') (.emit halike)

theorem held_alike (e : Log.Event) (fields fields' : List (String × String)) :
    Run.Carries Step.Alike (do Run.log e fields; return .emit (.literal true))
      (do Run.log e fields'; return .emit (.literal true)) :=
  .bind (.log _ _ _ _) fun _ _ _ => .pure (.emit (.refl _))

theorem reducePath_alike (hs : s.Offline) (hbuild : BuildsAlike build build') (hl : l.Alike l') (head rest : String)
    (f : Field) (comodel : Model) :
    Run.Carries Step.Alike (reducePath s build l head rest p f comodel) (reducePath s build' l' head rest p f comodel) := by
  have hd : (Domain.ofLeaf rest l.op l.right).Alike (Domain.ofLeaf rest l'.op l'.right) := by
    rw [hl.op]
    exact .ofLeaf rest l.op hl.right
  have found : ∀ ctx, Run.Carries Operand.Alike
      (findWith build ctx comodel.name (.ofLeaf rest l.op l.right) >>= fun x => pure x.operand)
      (findWith build' ctx comodel.name (.ofLeaf rest l'.op l'.right) >>= fun x => pure x.operand) := fun ctx =>
    .bind (findWith_alike hbuild ctx _ hd) fun _ _ hfound => .pure hfound.operand
  unfold reducePath
  refine .bind (R := Operand.Alike) ?_ fun _ _ hoperand => .pure (Step.alike_operand _ _ hoperand p)
  unfold reducePath.target
  split
  · exact found _
  · refine .bind (.ofExcept (.refl (fun _ => rfl) _)) fun name name' hname => ?_
    subst hname
    split
    · refine .silent (.silent ?_)
      unfold lineIds
      rw [hs.backend]
      exact Run.search_offline _ _ _
    · exact found _
  · exact found _

theorem reduceComputed_alike (hs : s.Offline) (f : Field) :
    Run.Carries Step.Alike (reduceComputed s build l p f) (reduceComputed s build' l' p f) := by
  unfold reduceComputed
  split
  · exact held_alike _ _ _
  · rw [hs.hooks]
    exact held_alike _ _ _

theorem reduceAttachment_alike (hl : l.Alike l') (f : Field) :
    Run.Carries Step.Alike (reduceAttachment s l p f) (reduceAttachment s l' p f) := by
  unfold reduceAttachment
  rw [hl.op, hl.right.isTruthy]
  dsimp only
  split
  · exact .pure (Step.alike_leaf (.refl _) p)
  · exact .pure (Step.alike_leaf (.refl _) p)
  · exact held_alike _ _ _

theorem reduceMany2one_alike (hs : s.Offline) (hl : l.Alike l') (head : String) (comodel : Model) :
    Run.Carries Step.Alike (reduceMany2one s build l head p comodel) (reduceMany2one s build' l' head p comodel) := by
  have emit := emitLeaf_alike (s := s) (p := p) hl
  have hright := hl.right
  unfold reduceMany2one
  rw [hl.op]
  split
  · refine .bind (rootIds_alike hs hl comodel) fun ids ids' hids => ?_
    subst hids
    split
    · exact hierarchyStep_alike hs _ _ _ _ _
    · exact hierarchyStep_alike hs _ _ _ _ _
  · generalize l.right = r at hright
    generalize l'.right = r' at hright
    cases hright with
    | subquery => exact emit
    | value hv =>
      dsimp only
      rw [names?_isSome hv]
      split
      · refine .silent (.silent ?_)
        unfold nameLeaf
        rw [hs.backend]
        exact (Run.nameSearch_offline _ _ _ _).silent
      · exact emit

theorem reduceIdHierarchy_alike (hs : s.Offline) (hl : l.Alike l') :
    Run.Carries Step.Alike (reduceIdHierarchy s build l p) (reduceIdHierarchy s build' l' p) := by
  unfold reduceIdHierarchy
  rw [hl.op]
  split
  · refine .bind (rootIds_alike hs hl p.model) fun ids ids' hids => ?_
    subst hids
    exact hierarchyStep_alike hs _ _ _ _ _
  · exact .fail

/-! ### Fields that refer to many records -/

/-- The same ids, or subqueries of one shape. -/
inductive Related.Alike : Related → Related → Prop
  | ids (ids : List Int) : Alike (.ids ids) (.ids ids)
  | rows {sub sub' : Select} : SameShape sub.fragment sub'.fragment → Alike (.rows sub) (.rows sub')

theorem relatedOf_alike (hs : s.Offline) (hl : l.Alike l') (comodel : Model) :
    Run.Carries Related.Alike (relatedOf s l comodel) (relatedOf s l' comodel) := by
  have hright := hl.right
  unfold relatedOf
  generalize l.right = r at hright
  generalize l'.right = r' at hright
  cases hright with
  | subquery hsub => exact .pure (.rows hsub)
  | @value v v' hv =>
    dsimp only
    cases hnames : names? v with
    | some names =>
      refine .silent (.silent ?_)
      rw [hs.backend]
      exact Run.nameSearch_offline _ _ _ _
    | none =>
      rw [names?_eq_none hv hnames]
      cases hv with
      | str => cases hnames
      | arr hitems =>
        dsimp only
        rw [integers?_alike (setItems_alike hitems)]
        split
        · exact .pure (.ids _)
        · exact .fail
      | refl =>
        cases v with
        | int n =>
          dsimp only
          split
          · exact .pure (.ids _)
          · exact .fail
        | arr items =>
          dsimp only
          split
          · exact .pure (.ids _)
          · exact .fail
        | _ => exact .fail

theorem linkedTo_alike {related related' : Related} (h : related.Alike related') (p : Place) (name : String)
    (relation : Relation) (positive : Bool) :
    CondAlike (linkedTo p name relation positive related) (linkedTo p name relation positive related') := by
  cases h with
  | ids => exact .refl _
  | rows hsub => exact .linked positive _ (select_sameShape hsub)

theorem reduceOne2many_alike (hs : s.Offline) (hl : l.Alike l') (f : Field) (comodel : Model) :
    Run.Carries Step.Alike (reduceOne2many s build l p f comodel) (reduceOne2many s build' l' p f comodel) := by
  have lines : ∀ d, (lineIds s comodel d).Meets (fun _ => False) (fun _ => True) := fun d => by
    unfold lineIds
    rw [hs.backend]
    exact Run.search_offline _ _ _
  unfold reduceOne2many
  refine .bind (.ofExcept (.refl (fun _ => rfl) _)) fun inverse inverse' hinverse => ?_
  subst hinverse
  rw [hl.op, hl.right.isUnset]
  dsimp only
  split
  · unfold one2manyHierarchy
    refine .bind (rootIds_alike hs hl comodel) fun ids ids' hids => ?_
    subst hids
    split
    · exact hierarchyStep_alike hs _ _ _ _ _
    · split
      · exact hierarchyStep_alike hs _ _ _ _ _
      · exact .bind (hierarchyDomain_alike hs _ _ _ _ _) fun d _ _ => .silent (lines d).silent
  · split
    · unfold allOwners
      split
      · exact .bind (R := Operand.Alike) (.pure (.refl _)) fun _ _ ho => .pure (Step.alike_operand _ _ ho p)
      · exact .silent (.silent (.silent (lines _)))
    · refine .bind (relatedOf_alike hs hl comodel) fun related related' hrelated => ?_
      cases hrelated with
      | ids ids =>
        cases ids with
        | nil => exact .pure (.emit (.refl _))
        | cons id rest =>
          cases inverse.store
          · rw [hs.backend]
            exact .silent (Run.references_offline _ _ _).silent
          · exact .pure (Step.alike_leaf (.refl _) p)
      | rows hsub =>
        cases inverse.store
        · exact .fail
        · exact .pure (Step.alike_operand _ _ (.subquery (owners_sameShape _ _ (select_sameShape hsub))) p)

theorem reduceMany2many_alike (hs : s.Offline) (hbuild : BuildsAlike build build') (hl : l.Alike l') (f : Field)
    (comodel : Model) :
    Run.Carries Step.Alike (reduceMany2many s build l p f comodel) (reduceMany2many s build' l' p f comodel) := by
  unfold reduceMany2many
  split
  · exact .fail
  · rename_i relation hrelation
    rw [hl.op, hl.right.isUnset]
    dsimp only
    split
    · unfold many2manyHierarchy
      refine .bind (rootIds_alike hs hl comodel) fun ids ids' hids => ?_
      subst hids
      refine .bind (hierarchyDomain_alike hs _ _ _ _ _) fun d d' hd => ?_
      obtain ⟨rfl, rfl⟩ := hd
      refine .bind (findWith_alike hbuild _ _ (.refl _)) fun found found' hfound => ?_
      split
      · exact .pure (Step.alike_operand _ _ hfound.operand p)
      · refine .pure (.emit (linkedTo_alike ?_ p _ _ true))
        cases hfound with
        | nothing => exact .ids []
        | rows hq => exact .rows hq.ids
    · split
      · exact .pure (Step.alike_leaf (.refl _) p)
      · exact .bind (relatedOf_alike hs hl comodel) fun _ _ hrelated => .pure (.emit (linkedTo_alike hrelated p _ _ _))

/-! ### All kinds -/

/-- Times apart, what a leaf becomes a leaf alike becomes as well. -/
theorem reduceKind_alike (hs : s.Offline) (hbuild : BuildsAlike build build') (hl : l.Alike l') {kind : FieldKind}
    (hkind : kind ≠ .datetime) :
    Run.Carries Step.Alike (reduceKind s build l p kind) (reduceKind s build' l' p kind) := by
  cases kind with
  | inherited parent link => exact .pure (Step.alike_followTo hl p link parent)
  | idHierarchy => exact reduceIdHierarchy_alike hs hl
  | joinedPath comodel rest =>
    rw [reduceKind, reduceKind, hl.path]
    exact .pure (Step.alike_followTo (hl.with_left rest) p _ comodel)
  | linesPath f comodel rest =>
    refine .bind (.ofExcept (.refl (fun _ => rfl) _)) fun inverse inverse' hinverse => ?_
    subst hinverse
    rw [hl.op]
    refine .bind (hbuild _ _ (.ofLeaf rest l.op hl.right)) fun q q' hq => .pure (Step.alike_operand _ _ ?_ p)
    rw [hq.tableAlias]
    exact .subquery (hq.subselect _)
  | path f comodel rest =>
    rw [reduceKind, reduceKind, hl.path]
    exact reducePath_alike hs hbuild hl _ rest f comodel
  | computed f => exact reduceComputed_alike hs f
  | one2many f comodel => exact reduceOne2many_alike hs hl f comodel
  | many2many f comodel => exact reduceMany2many_alike hs hbuild hl f comodel
  | many2one comodel =>
    rw [reduceKind, reduceKind, hl.path]
    exact reduceMany2one_alike hs hl _ comodel
  | attachment f => exact reduceAttachment_alike hl f
  | datetime => exact absurd rfl hkind
  | translatable =>
    rw [reduceKind, reduceKind, hl.right.isTruthy]
    split
    · exact .bind (.ofExcept (translatedCondition_alike hl p s.context)) fun _ _ hc => .pure (.emit hc)
    · exact emitLeaf_alike hl
  | plain => exact emitLeaf_alike hl

theorem reduce_alike (hs : s.Offline) (hbuild : BuildsAlike build build') (hl : l.Alike l')
    (htime : l.op ≠ .eqIfSet → classify s.registry p.model l ≠ .ok .datetime) :
    Run.Carries Step.Alike (reduce s build l p) (reduce s build' l' p) := by
  unfold reduce
  rw [hl.op, hl.right.isUnset]
  split
  · split
    · exact .pure (.emit (.refl _))
    · exact .pure (Step.alike_leaf (hl.with_op .eq) p)
  · rename_i hop
    cases hk : classify s.registry p.model l with
    | error e => exact .silent (.silent (.fail trivial))
    | ok kind =>
      obtain ⟨kind', hk', rfl⟩ := classify_alike s.registry p.model hl kind hk
      rw [hk']
      exact reduceKind_alike hs hbuild hl fun hkind => htime hop (hkind ▸ hk)

/-! ### Times -/

/-- A date is a text, and so is what it is widened to. -/
theorem widened_alike {w : Leaf} (hl : l.Alike l') (h : widenDate? l' = some w) : l.Alike w := by
  obtain ⟨date, time, hright, hsize, rfl⟩ := widenDate?_eq_some h
  have hne : ∀ {s : String}, s.utf8ByteSize ≠ 0 → s ≠ "" := fun hs hempty => hs (hempty ▸ rfl)
  have hwide : date ++ " " ++ time ≠ "" := hne (by rw [String.utf8ByteSize_append, String.utf8ByteSize_append]; omega)
  refine ⟨hl.left, hl.op, ?_⟩
  have hoperand := hl.right
  rw [hright] at hoperand
  generalize l.right = r at hoperand ⊢
  cases hoperand with
  | value hv =>
    cases hv with
    | refl => exact .value (.str (hne (by omega)) hwide)
    | str hs _ => exact .value (.str hs hwide)

end
end Compile
end RecordFilter
