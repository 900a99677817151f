import RecordFilter.Proofs.Schema.Registered

/-! What the kind of a leaf tells about the field at the head of its path. -/

namespace RecordFilter.Compile

variable {r : Registry} {m : Model} {l : Leaf}

/-- The kinds that a leaf on a model can have. -/
inductive Classifies (r : Registry) (m : Model) (l : Leaf) : FieldKind → Prop
  | inherited {parent link} : r.resolve? m l.path.1 = some (.inherited parent link) →
      Classifies r m l (.inherited parent link)
  | idHierarchy : Classifies r m l .idHierarchy
  | joinedPath {f comodel rest} : m.field? l.path.1 = some f → r.comodel f = .ok comodel → f.type = .many2one →
      f.autoJoin → Classifies r m l (.joinedPath comodel rest)
  | linesPath {f comodel rest} : m.field? l.path.1 = some f → f.type = .one2many → r.comodel f = .ok comodel →
      Classifies r m l (.linesPath f comodel rest)
  | path {f comodel rest} : m.field? l.path.1 = some f → r.comodel f = .ok comodel →
      Classifies r m l (.path f comodel rest)
  | computed {f} : m.field? l.path.1 = some f → Classifies r m l (.computed f)
  | one2many {f comodel} : m.field? l.left = some f → f.type = .one2many → r.comodel f = .ok comodel →
      Classifies r m l (.one2many f comodel)
  | many2many {f comodel} : m.field? l.left = some f → f.type = .many2many → f.store → r.comodel f = .ok comodel →
      Classifies r m l (.many2many f comodel)
  | many2one {f comodel} : m.field? l.left = some f → r.comodel f = .ok comodel → Classifies r m l (.many2one comodel)
  | attachment {f} : m.field? l.left = some f → Classifies r m l (.attachment f)
  | datetime {f} : m.field? l.left = some f → Classifies r m l .datetime
  | translatable {f} : m.field? l.left = some f → Classifies r m l .translatable
  | plain {f} : m.field? l.left = some f → l.path.2 = none → l.path.1 = l.left → Classifies r m l .plain

theorem classifyPath_ok {f : Field} {rest : String} {kind : FieldKind} (hf : m.field? l.path.1 = some f)
    (h : classifyPath r m l f rest = .ok kind) : Classifies r m l kind := by
  unfold classifyPath at h
  split at h
  · cases h
    exact .computed hf
  · split at h
    · cases h
    · split at h
      · cases h
      · rename_i hcomodel
        split at h
        · rename_i hauto
          split at h
          · rename_i htype
            cases h
            exact .joinedPath hf hcomodel htype hauto
          · rename_i htype
            cases h
            exact .linesPath hf htype hcomodel
          · cases h
        · cases h
          exact .path hf hcomodel

/-- The kind of a relational field is that of its comodel. -/
theorem comodel_of_map {f : Field} {kind : FieldKind} {g : Model → FieldKind} (h : (r.comodel f).map g = .ok kind) :
    ∃ comodel, r.comodel f = .ok comodel ∧ g comodel = kind := by
  cases hcomodel : r.comodel f with
  | ok comodel =>
    rw [hcomodel] at h
    exact ⟨comodel, rfl, Except.ok.inj h⟩
  | error e =>
    rw [hcomodel] at h
    cases h

theorem classifyField_ok {f : Field} {kind : FieldKind} (hf : m.field? l.left = some f) (hpath : l.path.1 = l.left)
    (hrest : l.path.2 = none) (h : classifyField r f = .ok kind) : Classifies r m l kind := by
  unfold classifyField at h
  split at h
  · cases h
    exact .computed (hpath ▸ hf)
  · rename_i hstore
    split at h
    · rename_i htype
      obtain ⟨comodel, hcomodel, rfl⟩ := comodel_of_map h
      exact .one2many hf htype hcomodel
    · rename_i htype
      obtain ⟨comodel, hcomodel, rfl⟩ := comodel_of_map h
      exact .many2many hf htype (by simpa using hstore) hcomodel
    · obtain ⟨comodel, hcomodel, rfl⟩ := comodel_of_map h
      exact .many2one hf hcomodel
    · split at h
      · cases h
        exact .attachment hf
      · split at h <;> cases h
        · exact .translatable hf
        · exact .plain hf hrest hpath
    · cases h
      exact .datetime hf
    · split at h <;> cases h
      · exact .translatable hf
      · exact .plain hf hrest hpath

theorem classify_ok {kind : FieldKind} (h : classify r m l = .ok kind) : Classifies r m l kind := by
  unfold classify at h
  dsimp only at h
  split at h
  · cases h
  · rename_i hresolve
    cases h
    exact .inherited hresolve
  · rename_i f hresolve
    have hf := Registry.resolve?_local hresolve
    split at h
    · exact classifyPath_ok hf h
    · rename_i hrest
      have hpath := Leaf.path_eq_of_none hrest
      split at h
      · cases h
        exact .idHierarchy
      · exact classifyField_ok (hpath ▸ hf) hpath hrest h

/-- What a leaf compares its field with does not matter for its kind, and of operators only whether they follow
    hierarchies. -/
theorem classify_with {op : Operator} (right : Operand) (hop : op.isHierarchy = l.op.isHierarchy) {kind : FieldKind}
    (h : classify r m l = .ok kind) : classify r m ⟨l.left, op, right⟩ = .ok kind := by
  have hpath : (Leaf.mk l.left op right).path = l.path := rfl
  unfold classify at h ⊢
  dsimp only at h ⊢
  rw [hpath]
  split at h
  · cases h
  · exact h
  · split at h
    · unfold classifyPath at h ⊢
      split at h
      · rename_i hstore
        rw [if_pos hstore]
        exact h
      · rename_i hstore
        rw [if_neg hstore]
        split at h
        · cases h
        · rename_i hrelational
          rw [if_neg hrelational]
          exact h
    · simpa only [hop] using h

/-- The kinds of paths know where the path goes on, and a leaf compares a field itself only where it does not. -/
def FieldKind.Fits (rest : Option String) : FieldKind → Prop
  | .joinedPath _ rest' | .linesPath _ _ rest' | .path _ _ rest' => rest = some rest'
  | .inherited .. | .computed _ => True
  | .idHierarchy | .one2many .. | .many2many .. | .many2one _ | .attachment _ | .datetime | .translatable | .plain =>
    rest = none

theorem classifyField_fits {f : Field} {kind : FieldKind} (h : classifyField r f = .ok kind) : kind.Fits none := by
  unfold classifyField at h
  split at h
  · cases h
    trivial
  · split at h
    · obtain ⟨comodel, -, rfl⟩ := comodel_of_map h
      rfl
    · obtain ⟨comodel, -, rfl⟩ := comodel_of_map h
      rfl
    · obtain ⟨comodel, -, rfl⟩ := comodel_of_map h
      rfl
    · split at h
      · cases h
        rfl
      · split at h <;> cases h <;> rfl
    · cases h
      rfl
    · split at h <;> cases h <;> rfl

theorem classify_fits {kind : FieldKind} (h : classify r m l = .ok kind) : kind.Fits l.path.2 := by
  unfold classify at h
  dsimp only at h
  split at h
  · cases h
  · cases h
    trivial
  · split at h
    · rename_i hrest
      rw [hrest]
      unfold classifyPath at h
      split at h
      · cases h
        trivial
      · split at h
        · cases h
        · split at h
          · cases h
          · split at h
            · split at h <;> cases h <;> rfl
            · cases h
              rfl
    · rename_i hrest
      rw [hrest]
      split at h
      · cases h
        rfl
      · exact classifyField_fits h

end RecordFilter.Compile
