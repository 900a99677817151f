import RecordFilter.Proofs.Compile.Delegation
import RecordFilter.Proofs.Compile.EmptySets

/-! The field that says whether a record is in use, and the leaf on it. The field is that of the first model, among the
    model itself and its ancestors, with one of its own; the leaf goes where the name of the field is found first. These
    are two searches with two tests. Where the tests agree, the leaf comes to the model that the name was taken from;
    where some parent has a field of that name that does not say whether a record is in use, it does not. -/

open Relation (ReflTransGen TransGen)

namespace RecordFilter

namespace Registry
variable {r : Registry} {name : String} {m k : Model} {depth n : Nat}

/-- The model that `activeWithin?` takes the field from. -/
def sourceWithin? (r : Registry) : Nat → Model → Option Model
  | 0, m => if m.activeField?.isSome then some m else none
  | depth + 1, m =>
    if m.activeField?.isSome then some m
    else m.inherits.entries.findSome? fun e => (r.model? e.1).bind (sourceWithin? r depth)

/-- The model whose own field says whether a record of the model is in use. -/
def activeSource? (r : Registry) (m : Model) : Option Model := r.sourceWithin? (r.models.size + 1) m

/-- On the model and its ancestors, the fields with the name are those that say whether a record is in use. -/
def TestsAlike (r : Registry) (name : String) (m : Model) : Prop :=
  ∀ k, ReflTransGen r.Inherits m k → ((k.field? name).isSome ↔ k.activeField? = some name)

theorem TestsAlike.of_parent {parent : Model} (h : r.TestsAlike name m) (hparent : r.Inherits m parent) :
    r.TestsAlike name parent := fun k hk => h k (hk.head hparent)

/-! ### Where the field is taken from -/

theorem sourceWithin?_own (depth : Nat) (h : m.activeField?.isSome) : r.sourceWithin? depth m = some m := by
  cases depth <;> rw [sourceWithin?, if_pos h]

theorem sourceWithin?_succ (h : m.activeField? = none) :
    r.sourceWithin? (depth + 1) m = m.inherits.entries.findSome? fun e =>
      (r.model? e.1).bind (r.sourceWithin? depth) := by
  simp [sourceWithin?, h]

/-- A source is the model itself, or that of the first parent with one. -/
theorem sourceWithin?_eq_some (h : r.sourceWithin? depth m = some k) :
    k = m ∧ m.activeField?.isSome ∨ ∃ left before parentName link after parent, depth = left + 1 ∧
      m.activeField? = none ∧ m.inherits.entries = before ++ (parentName, link) :: after ∧
      r.model? parentName = some parent ∧ r.sourceWithin? left parent = some k ∧
      ∀ e ∈ before, ∀ other, r.model? e.1 = some other → r.sourceWithin? left other = none := by
  cases hown : m.activeField? with
  | some name =>
    rw [sourceWithin?_own depth (by rw [hown]; rfl)] at h
    exact .inl ⟨(Option.some.inj h).symm, rfl⟩
  | none =>
    cases depth with
    | zero => simp [sourceWithin?, hown] at h
    | succ left =>
      rw [sourceWithin?_succ hown, List.findSome?_eq_some_iff] at h
      obtain ⟨before, ⟨parentName, link⟩, after, hentries, hfound, hbefore⟩ := h
      obtain ⟨parent, hparent, hsource⟩ := Option.bind_eq_some_iff.mp hfound
      refine .inr ⟨left, before, parentName, link, after, parent, rfl, rfl, hentries, hparent, hsource, ?_⟩
      intro e he other hother
      have hnone := hbefore e he
      rwa [hother] at hnone

/-- A source has a field of its own, and is the model or an ancestor. -/
theorem source_spec (h : r.sourceWithin? depth m = some k) : k.activeField?.isSome ∧ ReflTransGen r.Inherits m k := by
  induction depth generalizing m with
  | zero =>
    rcases sourceWithin?_eq_some h with ⟨rfl, hown⟩ | ⟨left, _, _, _, _, _, hdepth, -⟩
    · exact ⟨hown, .refl⟩
    · cases hdepth
  | succ depth ih =>
    rcases sourceWithin?_eq_some h with
      ⟨rfl, hown⟩ | ⟨left, before, parentName, link, after, parent, hdepth, -, hentries, hparent, hsource, -⟩
    · exact ⟨hown, .refl⟩
    · cases hdepth
      obtain ⟨hfield, hreach⟩ := ih hsource
      have hinherits : r.Inherits m parent :=
        ⟨parentName, link, by rw [hentries]; exact List.mem_append_right _ List.mem_cons_self, hparent⟩
      exact ⟨hfield, hreach.head hinherits⟩

/-- What is found first and then looked at is what is looked at and then found first, if looking never fails. -/
theorem findSome?_bind {α β γ : Type} {f : α → Option β} {g : β → Option γ} {xs : List α}
    (h : ∀ x ∈ xs, ∀ y, f x = some y → (g y).isSome) :
    xs.findSome? (fun x => (f x).bind g) = (xs.findSome? f).bind g := by
  induction xs with
  | nil => rfl
  | cons x xs ih =>
    obtain ⟨hx, hxs⟩ := List.forall_mem_cons.mp h
    rw [List.findSome?_cons, List.findSome?_cons]
    cases hf : f x with
    | none => exact ih hxs
    | some y =>
      obtain ⟨z, hz⟩ := Option.isSome_iff_exists.mp (hx y hf)
      simp only [Option.bind_some, hz]

/-- The field is that of the source. -/
theorem activeWithin?_eq_source (r : Registry) (depth : Nat) (m : Model) :
    r.activeWithin? depth m = (r.sourceWithin? depth m).bind Model.activeField? := by
  induction depth generalizing m with
  | zero => cases hown : m.activeField? <;> simp [activeWithin?, sourceWithin?, hown]
  | succ depth ih =>
    cases hown : m.activeField? with
    | some name => simp [activeWithin?, sourceWithin?, hown]
    | none =>
      rw [sourceWithin?_succ hown, ← findSome?_bind]
      · simp only [activeWithin?, hown]
        congr 1
        funext e
        cases r.model? e.1 with
        | none => rfl
        | some parent => exact ih parent
      · intro e _ k hk
        obtain ⟨parent, -, hsource⟩ := Option.bind_eq_some_iff.mp hk
        exact (source_spec hsource).1

theorem activeField?_eq_source (r : Registry) (m : Model) :
    r.activeField? m = (r.activeSource? m).bind Model.activeField? := activeWithin?_eq_source r _ m

/-! ### Where the name is found -/

/-- A parent is passed by if the name is not found there, and it is taken if it is the first one where it is. -/
theorem inherited?_eq_parent {before after : List (String × String)} {parentName link : String} {parent : Model}
    (hentries : m.inherits.entries = before ++ (parentName, link) :: after) (hparent : r.model? parentName = some parent)
    (hfound : (parent.field? name).isSome ∨ (r.inherited? name depth parent).isSome)
    (hbefore : ∀ e ∈ before, ∀ other, r.model? e.1 = some other →
      other.field? name = none ∧ r.inherited? name depth other = none) :
    r.inherited? name (depth + 1) m = some (.inherited parent link) := by
  rw [inherited?, List.findSome?_eq_some_iff]
  refine ⟨before, (parentName, link), after, hentries, ?_, fun e he => ?_⟩
  · dsimp only
    rw [hparent]
    exact if_pos (by simpa using hfound)
  · obtain ⟨otherName, otherLink⟩ := e
    dsimp only
    cases hother : r.model? otherName with
    | none => rfl
    | some other =>
      obtain ⟨hfield, hinherited⟩ := hbefore _ he other hother
      simp [hfield, hinherited]

theorem inherited?_eq_none (levels : Nat)
    (h : ∀ e ∈ m.inherits.entries, ∀ parent, r.model? e.1 = some parent →
      ∀ left, parent.field? name = none ∧ r.inherited? name left parent = none) :
    r.inherited? name levels m = none := by
  cases levels with
  | zero => rfl
  | succ levels =>
    rw [inherited?, List.findSome?_eq_none_iff]
    rintro ⟨parentName, link⟩ hmem
    dsimp only
    cases hparent : r.model? parentName with
    | none => rfl
    | some parent =>
      obtain ⟨hfield, hinherited⟩ := h _ hmem parent hparent levels
      simp [hfield, hinherited]

/-- The name is found wherever the search for the field finds a source with a field of that name. -/
theorem found_of_source (h : r.sourceWithin? depth m = some k) (hfield : (k.field? name).isSome) :
    (m.field? name).isSome ∨ (r.inherited? name depth m).isSome := by
  induction depth generalizing m with
  | zero =>
    rcases sourceWithin?_eq_some h with ⟨rfl, -⟩ | ⟨_, _, _, _, _, _, hdepth, -⟩
    · exact .inl hfield
    · cases hdepth
  | succ depth ih =>
    rcases sourceWithin?_eq_some h with
      ⟨rfl, -⟩ | ⟨left, before, parentName, link, after, parent, hdepth, -, hentries, hparent, hsource, -⟩
    · exact .inl hfield
    · cases hdepth
      have hinherits : r.Inherits m parent :=
        ⟨parentName, link, by rw [hentries]; exact List.mem_append_right _ List.mem_cons_self, hparent⟩
      exact .inr (inherited?_isSome_iff.mpr ⟨parent, hinherits, ih hsource⟩)

/-! ### Generations -/

/-- No chain of parents above the model is longer than `n`. -/
def Within (r : Registry) : Nat → Model → Prop
  | 0, m => ∀ parent, ¬r.Inherits m parent
  | n + 1, m => ∀ parent, r.Inherits m parent → Within r n parent

/-- A chain of parents that has come through some models has no more above it than there are others. -/
theorem Acyclic.within_past (h : r.Acyclic) {passed : List Model} (hnodup : (m :: passed).Nodup)
    (hhas : ∀ k ∈ m :: passed, r.Has k) (hreaches : ∀ k ∈ passed, TransGen r.Inherits k m)
    (hsize : r.models.size ≤ passed.length + n) : r.Within n m := by
  induction n generalizing m passed with
  | zero =>
    have hlength := length_le_of_has hnodup hhas
    rw [List.length_cons] at hlength
    omega
  | succ n ih =>
    rintro parent ⟨parentName, link, hmem, hparent⟩
    have hreaches' : ∀ k ∈ m :: passed, TransGen r.Inherits k parent :=
      have hinherits : r.Inherits m parent := ⟨parentName, link, hmem, hparent⟩
      List.forall_mem_cons.mpr ⟨.single hinherits, fun k hk => (hreaches k hk).tail hinherits⟩
    refine ih (List.nodup_cons.mpr ⟨fun hback => h parent (hreaches' parent hback), hnodup⟩)
      (List.forall_mem_cons.mpr ⟨⟨parentName, hparent⟩, hhas⟩) hreaches' ?_
    rw [List.length_cons]
    omega

theorem Acyclic.within (h : r.Acyclic) (hm : r.Has m) : r.Within r.models.size m :=
  h.within_past (List.nodup_cons.mpr ⟨List.not_mem_nil, .nil⟩) (List.forall_mem_singleton.mpr hm) nofun (by simp)

/-- A model without a source has no field of its own for the search, nor one with the name. -/
theorem own_of_no_source (halike : r.TestsAlike name m) (h : r.sourceWithin? depth m = none) :
    m.activeField? = none ∧ m.field? name = none := by
  have hown : m.activeField? = none := by
    refine Option.not_isSome_iff_eq_none.mp fun hactive => ?_
    rw [sourceWithin?_own depth hactive] at h
    cases h
  refine ⟨hown, ?_⟩
  rw [← Option.not_isSome_iff_eq_none, halike m .refl, hown]
  exact nofun

/-- Where the tests agree and no source is found, the name is not found either, however deep it is searched for. -/
theorem not_found_of_no_source (hwithin : r.Within n m) (hdepth : n ≤ depth) (halike : r.TestsAlike name m)
    (h : r.sourceWithin? depth m = none) (levels : Nat) :
    m.field? name = none ∧ r.inherited? name levels m = none := by
  induction n generalizing m depth levels with
  | zero =>
    refine ⟨(own_of_no_source halike h).2, inherited?_eq_none levels fun e he parent hparent => ?_⟩
    exact absurd ⟨e.1, e.2, he, hparent⟩ (hwithin parent)
  | succ n ih =>
    obtain ⟨hown, hfield⟩ := own_of_no_source halike h
    refine ⟨hfield, inherited?_eq_none levels fun e he parent hparent => ?_⟩
    have hinherits : r.Inherits m parent := ⟨e.1, e.2, he, hparent⟩
    obtain ⟨left, rfl⟩ := Nat.exists_eq_add_of_le' (Nat.le_trans (Nat.le_add_left 1 n) hdepth)
    have hnone : r.sourceWithin? left parent = none := by
      rw [sourceWithin?_succ hown, List.findSome?_eq_none_iff] at h
      have hskipped := h e he
      rwa [hparent] at hskipped
    exact ih (hwithin parent hinherits) (Nat.le_of_succ_le_succ hdepth) (halike.of_parent hinherits) hnone

end Registry

namespace Compile
open Registry Sql

variable {r : Registry} {name : String} {p : Place} {k : Model} {depth n : Nat}

/-- Where the tests agree, following the name comes to the source. -/
theorem delegates_to_source (hwithin : r.Within n p.model) (hn : n ≤ depth) (hdepth : depth ≤ r.models.size + 1)
    (halike : r.TestsAlike name p.model) (hname : (k.field? name).isSome)
    (h : r.sourceWithin? depth p.model = some k) : ∃ joins p', Delegates r name p joins p' ∧ p'.model = k := by
  induction n generalizing p depth with
  | zero =>
    rcases sourceWithin?_eq_some h with
      ⟨rfl, -⟩ | ⟨left, before, parentName, link, after, parent, -, -, hentries, hparent, -, -⟩
    · exact ⟨[], p, .here p, rfl⟩
    · exact absurd ⟨parentName, link, by rw [hentries]; exact List.mem_append_right _ List.mem_cons_self, hparent⟩
        (hwithin parent)
  | succ n ih =>
    rcases sourceWithin?_eq_some h with
      ⟨rfl, -⟩ | ⟨left, before, parentName, link, after, parent, rfl, hown, hentries, hparent, hsource, hbefore⟩
    · exact ⟨[], p, .here p, rfl⟩
    · have hmem : ∀ e ∈ before ++ (parentName, link) :: after, ∀ other, r.model? e.1 = some other →
          r.Inherits p.model other := fun e he other hother => ⟨e.1, e.2, hentries ▸ he, hother⟩
      have hinherits := hmem _ (List.mem_append_right _ List.mem_cons_self) parent hparent
      have hleft : n ≤ left := Nat.le_of_succ_le_succ hn
      have hfield : p.model.field? name = none := by
        rw [← Option.not_isSome_iff_eq_none, halike _ .refl, hown]
        exact nofun
      have hfound : (parent.field? name).isSome ∨ (r.inherited? name r.models.size parent).isSome :=
        (found_of_source hsource hname).imp_right (inherited?_isSome_mono (Nat.le_of_succ_le_succ hdepth))
      have hresolve : r.resolve? p.model name = some (.inherited parent link) := by
        rw [resolve?, hfield]
        refine inherited?_eq_parent hentries hparent hfound fun e he other hother => ?_
        have hother' := hmem e (List.mem_append_left _ he) other hother
        exact not_found_of_no_source (hwithin other hother') hleft (halike.of_parent hother')
          (hbefore e he other hother) _
      obtain ⟨joins, p', hdelegates, hmodel⟩ := ih (p := ⟨parent, makeAlias p.tableAlias link⟩)
        (hwithin parent hinherits) hleft (Nat.le_of_succ_le hdepth) (halike.of_parent hinherits) hsource
      exact ⟨_, p', .parent hresolve hdelegates, hmodel⟩

/-! ### The leaf -/

/-- That a record is in use. -/
def inUseLeaf (name : String) : Leaf := ⟨name, .eq, .value (.bool true)⟩

section
variable {s : Setting} {f : Field} {ctx : Context} {m : Model} {active : String} {d : Domain}

theorem plainCondition_inUse (hf : p.model.field? f.name = some f) (htype : f.type = .boolean) :
    plainCondition (inUseLeaf f.name) p ctx =
      .ok (.group (.compare (.column (p.column f.name)) .eq (.bool true) false)) := by
  unfold plainCondition inUseLeaf
  rw [hf]
  simp [literalLeaf, equality, comparison, htype, Operator.isPattern, Operator.isContains, Operator.isNegative,
    Param.ofJson?, Json.isUnset]

theorem op_inUse (name : String) : (inUseLeaf name).op ≠ .eqIfSet := show Operator.eq ≠ .eqIfSet from nofun

/-- Over an accepted registry, the name of a field is the whole path of the leaf. -/
theorem path_inUse (hr : r.Valid) (hk : r.Has k) (hf : k.field? name = some f) :
    (inUseLeaf name).path = (name, none) :=
  Leaf.path_of_dotless (Text.not_mem_of_isIdentifier (hr.isIdentifier_field hk hf) (by decide))

/-- A domain that has a leaf on the field decides by itself. -/
theorem withActive_of_mentioned (hactive : r.activeField? m = some active)
    (h : ∃ l ∈ d.leaves, l.left = active) : withActive r ctx m d = .ok d := by
  have hany : d.leaves.any (·.left = active) = true := by simpa using h
  unfold withActive
  rw [hactive]
  dsimp only
  rw [if_pos hany, ite_self]

/-- Beside a domain without such a leaf stands the one that asks for records in use. -/
theorem withActive_of_unmentioned {ts : List (Term Leaf)}
    (htest : ctx.activeTest = true) (hactive : r.activeField? m = some active) (h : ∀ l ∈ d.leaves, l.left ≠ active)
    (hts : Domain.terms? d = some ts) (hne : d ≠ []) (halways : d ≠ Domain.always) (hnever : d ≠ Domain.never) :
    withActive r ctx m d = .ok (Term.and (.leaf (inUseLeaf active)) (Term.conj ts)).spell := by
  have hany : d.leaves.any (·.left = active) = false := by simpa using h
  have hisNever : d.isNever = false := by
    unfold Domain.isNever
    split
    · exact absurd rfl hnever
    · rfl
  unfold withActive
  rw [htest, if_pos rfl, hactive]
  dsimp only
  rw [hany, if_neg Bool.false_ne_true]
  refine (allOf_leaf (inUseLeaf active) hts hne halways).trans ?_
  rw [hisNever]
  rfl

/-- Where the field is a boolean with a column, the column is compared. -/
theorem inUse_settles (hr : s.registry.Valid) (hp : s.registry.Has p.model) (hf : p.model.field? name = some f)
    (htype : f.type = .boolean) (hstore : f.store) (build : QueryBuilder) :
    Settles s build 1 (inUseLeaf name) p (.group (.compare (.column (p.column name)) .eq (.bool true) false)) := by
  have htranslate : f.translate = false := hr.translate_eq_false hp hf (by rw [htype]; rfl)
  have hk : classify s.registry p.model (inUseLeaf name) = .ok .plain := by
    rw [classify_own hr hp hf rfl, classifyField, hstore, htype, htranslate]
    rfl
  obtain rfl : f.name = name := hr.name_field hp hf
  exact settles_emit (reduce_of_classify (op_inUse _) hk (emitLeaf_yields (plainCondition_inUse hf htype)))

/-- A model's search takes the name from a source, among the model and its ancestors; if the name is a field of the
    source, it is found on the model. Where no model is its own ancestor and the two tests agree, the leaf on the name
    comes to the source, and asks there for the field that the name was taken from. -/
theorem inUse_reaches_source (hr : s.registry.Valid) (hm : s.registry.Has m)
    (hactive : s.registry.activeField? m = some name) (tableAlias : String) :
    ∃ k, s.registry.activeSource? m = some k ∧ k.activeField? = some name ∧ ReflTransGen s.registry.Inherits m k ∧
      ((k.field? name).isSome → (s.registry.resolve? m name).isSome) ∧
      (s.registry.Acyclic → s.registry.TestsAlike name m →
        ∃ joins p f, Delegates s.registry name ⟨m, tableAlias⟩ joins p ∧ p.model = k ∧ k.field? name = some f ∧
          ∀ build,
            (∀ rest results q, Machine.Moves s build joins.length
              ⟨⟨.leaf (inUseLeaf name), ⟨m, tableAlias⟩⟩ :: rest, results, q⟩
              ⟨⟨.leaf (inUseLeaf name), p⟩ :: rest, results, joins.foldl .addJoin q⟩) ∧
            (f.type = .boolean → f.store = true →
              Settles s build 1 (inUseLeaf name) p
                (.group (.compare (.column (p.column name)) .eq (.bool true) false)))) := by
  rw [activeField?_eq_source] at hactive
  obtain ⟨k, hsource, hname⟩ := Option.bind_eq_some_iff.mp hactive
  obtain ⟨-, hreach⟩ := source_spec hsource
  refine ⟨k, hsource, hname, hreach, fun hfield => ?_, fun hacyclic halike => ?_⟩
  · unfold resolve?
    cases hown : m.field? name with
    | some f => rfl
    | none =>
      rcases found_of_source hsource hfield with hlocal | hinherited
      · rw [hown] at hlocal
        cases hlocal
      · exact hinherited
  · have hfield : (k.field? name).isSome := (halike k hreach).mpr hname
    obtain ⟨f, hf⟩ := Option.isSome_iff_exists.mp hfield
    obtain ⟨joins, p, hdelegates, rfl⟩ := delegates_to_source (p := ⟨m, tableAlias⟩) (hacyclic.within hm)
      (Nat.le_succ _) (Nat.le_refl _) halike hfield hsource
    have hp : s.registry.Has p.model := hdelegates.has hm
    refine ⟨joins, p, f, hdelegates, rfl, hf, fun build => ⟨fun rest results q => ?_, fun htype hstore => ?_⟩⟩
    · have hpath : (inUseLeaf name).path.1 = name := congrArg Prod.fst (path_inUse hr hp hf)
      rw [← hpath] at hdelegates
      exact hdelegates.moves build (op_inUse _) rest results q
    · exact inUse_settles hr hp hf htype hstore build

end

/-! ### Members -/

/-- A member has a card and is a person. -/
def memberModel : Model :=
  (((((Model.ofTable "member" "member").withField { name := "code", type := .char }).withField
    (Field.many2one "card_id" "card")).withField (Field.many2one "person_id" "person")).inheriting "card"
    "card_id").inheriting "person" "person_id"

def personModel : Model := (Model.ofTable "person" "person").withField { name := "active", type := .boolean }

def cardModel : Model := Model.ofTable "card" "card"

/-- A card that is active as long as it has not run out, which is computed. -/
def expiringCard : Model := cardModel.withField { name := "active", type := .boolean, store := false }

/-- A compiler for members with some kind of cards, without a database. -/
def memberCompiler (card : Model) : Compiler where
  registry := { models := ((Keyed.empty.insert "member" memberModel).insert "card" card).insert "person" personModel }
  context := { taskCompiler.context with activeTest := true }

theorem valid_members : (memberCompiler cardModel).registry.Valid where
  built := .register (m := personModel) (.register (m := cardModel) (.register (m := memberModel) .empty rfl) rfl) rfl
  validated := rfl

theorem valid_expiring : (memberCompiler expiringCard).registry.Valid where
  built := .register (m := personModel) (.register (m := expiringCard) (.register (m := memberModel) .empty rfl) rfl)
    rfl
  validated := rfl

theorem has_members {card m : Model} (h : (memberCompiler card).registry.Has m) :
    m = memberModel ∨ m = card ∨ m = personModel := by
  obtain ⟨name, hname⟩ := h
  have hmem : (name, m) ∈ [("card", card), ("member", memberModel), ("person", personModel)] :=
    Registry.mem_of_lookup hname
  simp only [List.mem_cons, List.not_mem_nil, or_false, Prod.mk.injEq] at hmem
  rcases hmem with ⟨-, rfl⟩ | ⟨-, rfl⟩ | ⟨-, rfl⟩
  · exact .inr (.inl rfl)
  · exact .inl rfl
  · exact .inr (.inr rfl)

/-- Only members have parents, and no parent is a member. -/
theorem acyclic_members {card : Model} (hcard : card.inherits.entries = []) :
    (memberCompiler card).registry.Acyclic := by
  refine Registry.acyclic_of_rank (fun m => m.inherits.entries.length) fun hm ⟨parentName, link, hmem, hparent⟩ => ?_
  rcases has_members hm with rfl | rfl | rfl
  · have hmem : (parentName, link) ∈ [("card", "card_id"), ("person", "person_id")] := hmem
    simp only [List.mem_cons, List.not_mem_nil, or_false, Prod.mk.injEq] at hmem
    rcases hmem with ⟨rfl, -⟩ | ⟨rfl, -⟩ <;> cases hparent
    · rw [hcard]
      exact Nat.succ_pos 1
    · exact Nat.succ_pos 1
  · rw [hcard] at hmem
    cases hmem
  · cases hmem

/-- Where cards have no field with the name, members are filtered as persons. -/
theorem inUse_reaches_person :
    let r := (memberCompiler cardModel).registry
    r.Valid ∧ r.Has memberModel ∧ r.activeField? memberModel = some "active" ∧ r.Acyclic ∧
      r.TestsAlike "active" memberModel ∧
      ∃ joins p, Delegates r "active" ⟨memberModel, "member"⟩ joins p ∧ p.model = personModel := by
  intro r
  have hm : r.Has memberModel := ⟨"member", rfl⟩
  have hactive : r.activeField? memberModel = some "active" := rfl
  have hacyclic : r.Acyclic := acyclic_members rfl
  have halike : r.TestsAlike "active" memberModel := by
    intro k hk
    have hhas : r.Has k := by
      cases hk with
      | refl => exact hm
      | tail _ hlast =>
        obtain ⟨parentName, _, _, hparent⟩ := hlast
        exact ⟨parentName, hparent⟩
    rcases has_members hhas with rfl | rfl | rfl <;> decide
  obtain ⟨k, hsource, -, -, -, hreaches⟩ := inUse_reaches_source (s := (memberCompiler cardModel).setting
    (memberCompiler cardModel).context) valid_members hm hactive "member"
  obtain ⟨joins, p, f, hdelegates, hp, -⟩ := hreaches hacyclic halike
  have hperson : r.activeSource? memberModel = some personModel := rfl
  obtain rfl : k = personModel := Option.some.inj (hsource.symm.trans hperson)
  exact ⟨valid_members, hm, hactive, hacyclic, halike, joins, p, hdelegates, hp⟩

/-- Drafts say with a field that they do not have whether they are in use. -/
def draftModel : Model := { Model.ofTable "draft" "draft" with activeName := some "in_use" }

def draftCompiler : Compiler where
  registry := { models := Keyed.empty.insert "draft" draftModel }
  context := { taskCompiler.context with activeTest := true }

theorem valid_drafts : draftCompiler.registry.Valid where
  built := .register (m := draftModel) .empty rfl
  validated := rfl

/-- The field for members is that of a person, but the leaf on it goes to the card, whose computed field cannot be
    searched, so no member is left out. The field for drafts is not found, and no query of drafts compiles. -/
theorem inUse_strays :
    let r := (memberCompiler expiringCard).registry
    (r.Valid ∧ r.Acyclic ∧ r.activeField? memberModel = some "active" ∧
      r.activeSource? memberModel = some personModel ∧
      (∀ joins p f, Delegates r "active" ⟨memberModel, "member"⟩ joins p →
        r.resolve? p.model "active" = some (.local f) → p.model = expiringCard ∧ p.model ≠ personModel) ∧
      ∃ q t, ((memberCompiler expiringCard).query 9 "member" [.leaf ⟨"code", .eq, .value (.str "A")⟩]).Gives {} q t ∧
        q.joins.map (·.targetTable) = ["card"] ∧
        q.condition.fragment.sql = "(TRUE AND (\"member\".\"code\" = %s))") ∧
    draftCompiler.registry.Valid ∧ draftCompiler.registry.activeField? draftModel = some "in_use" ∧
      draftCompiler.registry.resolve? draftModel "in_use" = none ∧
      ((draftCompiler.query 9 "draft" [.leaf ⟨"id", .eq, .value (.int 1)⟩]).run {}).1 =
        .error (.error (.invalidField "draft" "in_use" "('in_use', '=', true)")) := by
  intro r
  refine ⟨⟨valid_expiring, acyclic_members rfl, rfl, rfl, fun joins p f hdelegates hlocal => ?_, ?_⟩,
    valid_drafts, rfl, rfl, rfl⟩
  · cases hdelegates with
    | here => cases hlocal
    | parent hresolve hnext =>
      cases hresolve
      cases hnext with
      | here => exact ⟨rfl, by decide⟩
      | parent hresolve => cases hresolve
  · have hok : ((((memberCompiler expiringCard).query 9 "member" [.leaf ⟨"code", .eq, .value (.str "A")⟩]).run {}).1.map
        fun q => (q.joins.map (·.targetTable), q.condition.fragment.sql)).toOption =
          some (["card"], "(TRUE AND (\"member\".\"code\" = %s))") := by decide +kernel
    rcases h : ((memberCompiler expiringCard).query 9 "member" [.leaf ⟨"code", .eq, .value (.str "A")⟩]).run {} with
      ⟨stop | q, t⟩ <;> rw [h] at hok
    · cases hok
    · obtain ⟨hjoins, hsql⟩ := Prod.mk.inj (Option.some.inj hok)
      exact ⟨q, t, h, hjoins, hsql⟩

end Compile
end RecordFilter
