import RecordFilter.Compiler
import RecordFilter.Proofs.Compile.Kinds

/-! Registries that differ in one flag: whether paths through a many2one field join its table or search its records
    apart. Names resolve alike in both, and a leaf is of the same kind unless its path goes on after that field. -/

namespace RecordFilter

/-- The field, its paths not joined. -/
def Field.apart (f : Field) : Field := { f with autoJoin := false }

/-- The model; if it is the one with the name, without joins for paths through the field. -/
def Model.apart (model field : String) (m : Model) : Model :=
  if m.name = model then
    { m with fields := m.fields.mapValues fun name f => if name = field then f.apart else f }
  else m

/-- The registry without joins for paths through a field of a model. -/
def Registry.apart (r : Registry) (model field : String) : Registry :=
  { r with models := r.models.mapValues fun _ m => m.apart model field }

/-- The compiler over the registry without these joins. -/
def Compiler.apart (c : Compiler) (model field : String) : Compiler := { c with registry := c.registry.apart model field }

/-- The model has a many2one field with a column whose paths are joined. -/
def Registry.JoinsThrough (r : Registry) (model field : String) : Prop :=
  ∃ m f, r.model model = .ok m ∧ m.field? field = some f ∧ f.type = .many2one ∧ f.store = true ∧ f.autoJoin = true

namespace Keyed
variable {α β : Type}

theorem size_mapValues (f : String → α → β) (m : Keyed α) : (m.mapValues f).size = m.size := List.length_map _

end Keyed

/-! ### Models -/

namespace Model
variable {model field : String} {m : Model}

theorem apart_eq (model field : String) (m : Model) : ∃ fields, m.apart model field = { m with fields := fields } := by
  unfold Model.apart
  split
  · exact ⟨_, rfl⟩
  · exact ⟨m.fields, rfl⟩

@[simp]
theorem apart_name : (m.apart model field).name = m.name := by
  obtain ⟨fields, heq⟩ := apart_eq model field m
  rw [heq]

@[simp]
theorem apart_table : (m.apart model field).table = m.table := by
  obtain ⟨fields, heq⟩ := apart_eq model field m
  rw [heq]

@[simp]
theorem apart_inherits : (m.apart model field).inherits = m.inherits := by
  obtain ⟨fields, heq⟩ := apart_eq model field m
  rw [heq]

@[simp]
theorem apart_parentName : (m.apart model field).parentName = m.parentName := by
  obtain ⟨fields, heq⟩ := apart_eq model field m
  rw [heq]

@[simp]
theorem apart_parentStore : (m.apart model field).parentStore = m.parentStore := by
  obtain ⟨fields, heq⟩ := apart_eq model field m
  rw [heq]

theorem field?_apart (name : String) : (m.apart model field).field? name =
    (m.field? name).map fun f => if m.name = model ∧ name = field then f.apart else f := by
  unfold Model.apart Model.field?
  by_cases hmodel : m.name = model
  · rw [if_pos hmodel, Keyed.find?_mapValues]
    simp [hmodel]
  · rw [if_neg hmodel]
    simp [hmodel]

theorem isSome_field?_apart (name : String) : ((m.apart model field).field? name).isSome = (m.field? name).isSome := by
  rw [field?_apart, Option.isSome_map]

/-- The other fields stay. -/
theorem field?_apart_of_ne {name : String} (h : ¬(m.name = model ∧ name = field)) :
    (m.apart model field).field? name = m.field? name := by
  rw [field?_apart]
  simp [h]

end Model

/-! ### Registries -/

/-- Where a name leads, the parent taken from the registry without the joins. -/
def FieldLookup.apart (model field : String) : FieldLookup → FieldLookup
  | .local f => .local f
  | .inherited parent link => .inherited (parent.apart model field) link

namespace Registry
variable {r : Registry} {model field : String} {m : Model}

theorem model?_apart (name : String) : (r.apart model field).model? name = (r.model? name).map (·.apart model field) :=
  Keyed.find?_mapValues _ r.models name

theorem model_apart {name : String} (h : r.model name = .ok m) :
    (r.apart model field).model name = .ok (m.apart model field) := by
  unfold Registry.model at h ⊢
  rw [model?_apart]
  split at h
  · rename_i hm
    cases h
    rw [hm]
    rfl
  · cases h

theorem comodel_apart {f f' : Field} (hf : f'.comodel = f.comodel) (h : r.comodel f = .ok m) :
    (r.apart model field).comodel f' = .ok (m.apart model field) := by
  unfold Registry.comodel at h ⊢
  rw [hf]
  split at h
  · exact model_apart h
  · cases h

/-- There are no other models. -/
theorem model?_of_apart {name : String} {m' : Model} (h : (r.apart model field).model? name = some m') :
    ∃ m, m' = m.apart model field ∧ r.model? name = some m := by
  rw [model?_apart] at h
  obtain ⟨m, hm, rfl⟩ := Option.map_eq_some_iff.mp h
  exact ⟨m, rfl, hm⟩

theorem comodel_of_apart {f : Field} {m' : Model} (h : (r.apart model field).comodel f = .ok m') :
    ∃ m, m' = m.apart model field ∧ r.comodel f = .ok m := by
  unfold Registry.comodel at h ⊢
  split at h
  · unfold Registry.model at h ⊢
    split at h
    · rename_i hsome
      cases h
      obtain ⟨m, rfl, hm⟩ := model?_of_apart hsome
      exact ⟨m, rfl, by rw [hm]⟩
    · cases h
  · cases h

theorem inherited?_apart (name : String) (depth : Nat) : (r.apart model field).inherited? name depth (m.apart model field) =
    (r.inherited? name depth m).map (.apart model field) := by
  induction depth generalizing m with
  | zero => rfl
  | succ depth ih =>
    unfold Registry.inherited?
    rw [Model.apart_inherits]
    generalize m.inherits.entries = entries
    induction entries with
    | nil => rfl
    | cons e rest hrest =>
      obtain ⟨parentName, link⟩ := e
      rw [List.findSome?_cons, List.findSome?_cons]
      dsimp only
      rw [model?_apart]
      cases r.model? parentName with
      | none => exact hrest
      | some parent =>
        simp only [Option.map_some, Model.isSome_field?_apart, ih, Option.isSome_map]
        split
        · rename_i hfound
          split at hfound
          · rename_i hhas
            cases hfound
            rw [if_pos hhas]
            rfl
          · cases hfound
        · rename_i hnone
          split at hnone
          · cases hnone
          · rename_i hhas
            rw [if_neg hhas]
            exact hrest

/-- A name leads to the same field or the same parent. -/
theorem resolve?_apart_inherited {name : String} {parent : Model} {link : String}
    (h : r.resolve? m name = some (.inherited parent link)) :
    (r.apart model field).resolve? (m.apart model field) name = some (.inherited (parent.apart model field) link) := by
  unfold Registry.resolve? at h ⊢
  have hfield : (m.apart model field).field? name = _ := Model.field?_apart name
  split at h
  · cases h
  · rename_i hnone
    rw [hfield, hnone]
    show (r.apart model field).inherited? name ((r.apart model field).models.size + 1) (m.apart model field) = _
    rw [show (r.apart model field).models.size = r.models.size from Keyed.size_mapValues _ _, inherited?_apart, h]
    rfl

theorem has_apart (h : r.Has m) : (r.apart model field).Has (m.apart model field) := by
  obtain ⟨name, hname⟩ := h
  exact ⟨name, by rw [model?_apart, hname]; rfl⟩

theorem has_of_apart {m' : Model} (h : (r.apart model field).Has m') : ∃ m, m' = m.apart model field ∧ r.Has m := by
  obtain ⟨name, hname⟩ := h
  obtain ⟨m, rfl, hm⟩ := model?_of_apart hname
  exact ⟨m, rfl, name, hm⟩

/-- The field whose paths are joined is a many2one field with a column. -/
theorem JoinsThrough.of_field? (h : r.JoinsThrough model field) (hr : r.Built) (hm : r.Has m) (hmodel : m.name = model)
    {f : Field} (hf : m.field? field = some f) : f.type = .many2one ∧ f.store = true ∧ f.autoJoin = true := by
  obtain ⟨m', f', hm', hf', htype, hstore, hauto⟩ := h
  have hsame := hr.model_eq hm
  rw [hmodel] at hsame
  cases hsame.symm.trans hm'
  cases hf.symm.trans hf'
  exact ⟨htype, hstore, hauto⟩

end Registry

/-! ### Kinds of leaves -/

namespace Compile

/-- The kind, with models from the registry without the joins. -/
def FieldKind.apart (model field : String) : FieldKind → FieldKind
  | .inherited parent link => .inherited (parent.apart model field) link
  | .idHierarchy => .idHierarchy
  | .joinedPath comodel rest => .joinedPath (comodel.apart model field) rest
  | .linesPath f comodel rest => .linesPath f (comodel.apart model field) rest
  | .path f comodel rest => .path f (comodel.apart model field) rest
  | .computed f => .computed f
  | .one2many f comodel => .one2many f (comodel.apart model field)
  | .many2many f comodel => .many2many f (comodel.apart model field)
  | .many2one comodel => .many2one (comodel.apart model field)
  | .attachment f => .attachment f
  | .datetime => .datetime
  | .translatable => .translatable
  | .plain => .plain

/-- The model has a many2one field with a column. -/
structure Refers (r : Registry) (m : Model) (field : String) (f : Field) (target : Model) : Prop where
  field : m.field? field = some f
  type : f.type = .many2one
  store : f.store = true
  comodel : r.comodel f = .ok target

/-- The path of the leaf goes on after the field, to be joined. -/
structure Crosses (r : Registry) (model field : String) (m : Model) (l : Leaf) (comodel : Model) (rest : String) : Prop where
  name : m.name = model
  path : l.path = (field, some rest)
  kind : classify r m l = .ok (.joinedPath comodel rest)

section
variable {r : Registry} {model field : String} {m : Model} {l l' : Leaf} {f : Field} {kind : FieldKind}

theorem comodel_map_apart {f' : Field} (hf : f'.comodel = f.comodel) {g g' : Model → FieldKind}
    (hg : ∀ comodel, g' (comodel.apart model field) = (g comodel).apart model field)
    (h : (r.comodel f).map g = .ok kind) : ((r.apart model field).comodel f').map g' = .ok (kind.apart model field) := by
  cases hm : r.comodel f with
  | error e =>
    rw [hm] at h
    cases h
  | ok comodel =>
    rw [hm] at h
    cases h
    rw [Registry.comodel_apart hf hm]
    exact congrArg Except.ok (hg comodel)

/-- A leaf on a field itself. -/
theorem classifyField_apart (h : classifyField r f = .ok kind) :
    classifyField (r.apart model field) f = .ok (kind.apart model field) := by
  unfold classifyField at h ⊢
  split at h
  · rename_i hstore
    cases h
    rw [if_pos hstore]
    rfl
  · rename_i hstore
    rw [if_neg hstore]
    cases htype : f.type <;> simp only [htype] at h ⊢
    case one2many => exact comodel_map_apart rfl (fun _ => rfl) h
    case many2many => exact comodel_map_apart rfl (fun _ => rfl) h
    case many2one => exact comodel_map_apart rfl (fun _ => rfl) h
    -- The other kinds of fields do not lead to a model.
    all_goals
      revert h
      cases f.attachment <;> cases f.translate <;> rintro ⟨⟩ <;> rfl

/-- A path that goes on after a field. -/
theorem classifyPath_apart {rest : String} (h : classifyPath r m l f rest = .ok kind) :
    classifyPath (r.apart model field) (m.apart model field) l' f rest = .ok (kind.apart model field) := by
  unfold classifyPath at h ⊢
  split at h
  · rename_i hstore
    cases h
    rw [if_pos hstore]
    rfl
  · rename_i hstore
    rw [if_neg hstore]
    split at h
    · cases h
    · rename_i hrelational
      rw [if_neg hrelational]
      split at h
      · cases h
      · rename_i hcomodel
        rw [Registry.comodel_apart rfl hcomodel]
        split at h
        · rename_i hauto
          dsimp only
          rw [if_pos hauto]
          cases htype : f.type <;> simp only [htype] at h ⊢ <;> cases h <;> rfl
        · rename_i hauto
          cases h
          dsimp only
          rw [if_neg hauto]
          rfl

/-- Without the joins, a path through the field is searched apart. -/
theorem classifyPath_crossed (model field : String) (l' : Leaf) {rest : String} (htype : f.type = .many2one)
    (hstore : f.store = true) (hauto : f.autoJoin = true) (h : classifyPath r m l f rest = .ok kind) :
    ∃ comodel, kind = .joinedPath comodel rest ∧
      (r.apart model field).comodel f.apart = .ok (comodel.apart model field) ∧
      classifyPath (r.apart model field) (m.apart model field) l' f.apart rest =
        .ok (.path f.apart (comodel.apart model field) rest) := by
  unfold classifyPath at h ⊢
  simp only [hstore, htype, hauto, FieldType.isRelational, Bool.not_true, Bool.false_eq_true, if_false, if_true] at h
  split at h
  · cases h
  · rename_i comodel hcomodel
    cases h
    have hcomodel' : (r.apart model field).comodel f.apart = .ok (comodel.apart model field) :=
      Registry.comodel_apart rfl hcomodel
    refine ⟨comodel, rfl, hcomodel', ?_⟩
    rw [hcomodel']
    simp [Field.apart, hstore, htype, FieldType.isRelational]

theorem classify_local (h : m.field? l.path.1 = some f) : classify r m l =
    match l.path.2 with
    | some rest => classifyPath r m l f rest
    | none => if l.path.1 = "id" && l.op.isHierarchy then .ok .idHierarchy else classifyField r f := by
  have hresolve : r.resolve? m l.path.1 = some (.local f) := by rw [Registry.resolve?, h]
  cases hpath : l.path.2 <;> simp only [classify, hresolve, hpath]

/-- A leaf is of the same kind in both registries, unless its path is joined through the field in one of them. -/
theorem classify_apart (hr : r.Built) (hjoins : r.JoinsThrough model field) (hm : r.Has m) (hleft : l'.left = l.left)
    (hop : l'.op = l.op) (h : classify r m l = .ok kind) :
    classify (r.apart model field) (m.apart model field) l' = .ok (kind.apart model field) ∨
      ∃ f comodel rest, Crosses r model field m l comodel rest ∧ kind = .joinedPath comodel rest ∧
        Refers (r.apart model field) (m.apart model field) field f (comodel.apart model field) ∧
        classify (r.apart model field) (m.apart model field) l' = .ok (.path f (comodel.apart model field) rest) := by
  have hpath : l'.path = l.path := by rw [Leaf.path, Leaf.path, hleft]
  cases hresolve : r.resolve? m l.path.1 with
  | none =>
    unfold classify at h
    dsimp only at h
    rw [hresolve] at h
    cases h
  | some found =>
    cases found with
    | inherited parent link =>
      have hkind : classify r m l = .ok (.inherited parent link) := by
        unfold classify
        dsimp only
        rw [hresolve]
      cases hkind.symm.trans h
      refine .inl ?_
      unfold classify
      dsimp only
      rw [hpath, Registry.resolve?_apart_inherited hresolve]
      rfl
    | «local» f =>
      have hf := Registry.resolve?_local hresolve
      have hkind := h
      rw [classify_local hf] at h
      by_cases hcross : m.name = model ∧ l.path.1 = field
      · obtain ⟨hmodel, hfield⟩ := hcross
        obtain ⟨htype, hstore, hauto⟩ := hjoins.of_field? hr hm hmodel (hfield ▸ hf)
        have hf' : (m.apart model field).field? l.path.1 = some f.apart := by
          rw [Model.field?_apart, hf]
          simp [hmodel, hfield]
        rw [classify_local (hpath ▸ hf'), hpath, hop]
        split at h
        · rename_i rest hrest
          obtain ⟨comodel, rfl, hcomodel, hclass⟩ := classifyPath_crossed model field l' htype hstore hauto h
          have hrefers : Refers (r.apart model field) (m.apart model field) field f.apart (comodel.apart model field) :=
            ⟨hfield ▸ hf', htype, hstore, hcomodel⟩
          exact .inr ⟨_, comodel, rest, ⟨hmodel, Prod.ext hfield hrest, hkind⟩, rfl, hrefers, hclass⟩
        · split at h
          · rename_i hid
            cases h
            rw [if_pos hid]
            exact .inl rfl
          · rename_i hid
            rw [if_neg hid]
            refine .inl ?_
            have hstore' : f.apart.store = true := hstore
            have htype' : f.apart.type = .many2one := htype
            unfold classifyField at h ⊢
            rw [hstore, htype] at h
            rw [hstore', htype']
            exact comodel_map_apart (f := f) rfl (fun _ => rfl) h
      · have hf' : (m.apart model field).field? l'.path.1 = some f := by
          rw [hpath, Model.field?_apart_of_ne hcross, hf]
        refine .inl ?_
        rw [classify_local hf', hpath, hop]
        split at h
        · exact classifyPath_apart h
        · split at h
          · rename_i hid
            cases h
            rw [if_pos hid]
            rfl
          · rename_i hid
            rw [if_neg hid]
            exact classifyField_apart h

end
end Compile
end RecordFilter
