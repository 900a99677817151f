import RecordFilter.Compile.Classify

/-! Where field names lead, and what is known of the models of a registry. -/

namespace RecordFilter

namespace Leaf

/-- Without a dot the path is its first field. -/
theorem splitPath_eq_of_none {cs head : List Char} (h : splitPath cs = (head, none)) : head = cs := by
  induction cs generalizing head with
  | nil => cases h; rfl
  | cons c rest ih =>
    unfold splitPath at h
    split at h
    · cases h
    · rcases hrest : splitPath rest with ⟨head', tail⟩
      rw [hrest] at h
      cases h
      rw [ih hrest]

theorem path_eq_of_none {l : Leaf} (h : l.path.2 = none) : l.path.1 = l.left := by
  unfold path at h ⊢
  rcases hsplit : splitPath l.left.toList with ⟨head, tail⟩
  rw [hsplit] at h
  cases tail with
  | some tail => cases h
  | none =>
    rw [splitPath_eq_of_none hsplit]
    exact String.ofList_toList

end Leaf

/-- What cannot continue an identifier is not in one. -/
theorem Text.not_mem_of_isIdentifier {s : String} {c : Char} (h : isIdentifier s)
    (hc : continuesIdentifier c = false) : c ∉ s.toList := by
  intro hmem
  unfold isIdentifier isIdentifierChars at h
  split at h
  · cases h
  · rename_i d rest hlist
    rw [hlist] at hmem
    obtain ⟨hstart, hrest⟩ := Bool.and_eq_true_iff.mp h
    rcases List.mem_cons.mp hmem with rfl | hmem
    · rw [continuesIdentifier, hstart] at hc
      cases hc
    · have hcontinues := List.all_eq_true.mp hrest c hmem
      rw [hc] at hcontinues
      cases hcontinues

namespace Registry
variable {r : Registry} {m : Model} {name : String}

/-! ### Resolving names -/

theorem inherited?_eq_some {depth : Nat} {found : FieldLookup} (h : r.inherited? name depth m = some found) :
    ∃ parentName link parent, (parentName, link) ∈ m.inherits.entries ∧ r.model? parentName = some parent ∧
      found = .inherited parent link := by
  cases depth with
  | zero => cases h
  | succ depth =>
    obtain ⟨⟨parentName, link⟩, hmem, hfound⟩ := List.exists_of_findSome?_eq_some h
    dsimp only at hfound
    split at hfound
    · cases hfound
    · rename_i parent hparent
      split at hfound
      · exact ⟨parentName, link, parent, hmem, hparent, (Option.some.inj hfound).symm⟩
      · cases hfound

/-- A name leads to the model's own field under it. -/
theorem resolve?_local {f : Field} (h : r.resolve? m name = some (.local f)) : m.field? name = some f := by
  unfold resolve? at h
  split at h
  · rename_i hf
    cases h
    exact hf
  · obtain ⟨_, _, _, _, _, hfound⟩ := inherited?_eq_some h
    cases hfound

/-- A name leads to a parent through a link that the model has for it. -/
theorem resolve?_inherited {parent : Model} {link : String} (h : r.resolve? m name = some (.inherited parent link)) :
    ∃ parentName, (parentName, link) ∈ m.inherits.entries ∧ r.model? parentName = some parent := by
  unfold resolve? at h
  split at h
  · cases h
  · obtain ⟨parentName, link', parent', hmem, hparent, hfound⟩ := inherited?_eq_some h
    cases hfound
    exact ⟨parentName, hmem, hparent⟩

/-! ### Models that were registered -/

/-- The names that a registered model brings along are identifiers, and its fields know theirs. -/
structure ModelNamed (m : Model) : Prop where
  table : Text.isIdentifier m.table
  fields : ∀ e ∈ m.fields.entries, Text.isIdentifier e.1 ∧ e.2.name = e.1

/-- The registries that come up by registering models and search hooks. -/
inductive Built : Registry → Prop
  | empty : Built {}
  | register {r m r'} : Built r → r.register m = .ok r' → Built r'
  | registerHook {r : Registry} (name : String) (hook : Hook) : Built r → Built (r.registerHook name hook)

theorem mem_of_lookup {α : Type} {key : String} {entries : List (String × α)} {value : α}
    (h : Keyed.lookup key entries = some value) : (key, value) ∈ entries := by
  induction entries with
  | nil => cases h
  | cons e rest ih =>
    obtain ⟨k, v⟩ := e
    unfold Keyed.lookup at h
    split at h
    · rename_i hk
      cases h
      exact hk ▸ List.mem_cons_self
    · exact List.mem_cons_of_mem _ (ih h)

theorem mem_insertNew {α : Type} {fields : Keyed α} {key : String} {value : α} {e : String × α}
    (h : e ∈ (fields.insertNew key value).entries) : e = (key, value) ∨ e ∈ fields.entries := by
  unfold Keyed.insertNew at h
  split at h
  · exact Or.inr h
  · exact Keyed.of_mem_place h

/-- Completing a model gives each field the name it is kept under. -/
theorem name_of_mem_complete {m : Model} {e : String × Field} (h : e ∈ m.complete.fields.entries) : e.2.name = e.1 := by
  have hnamed : ∀ e ∈ (m.fields.mapValues fun name f => { f with name := name }).entries, e.2.name = e.1 := by
    intro e he
    obtain ⟨e', -, rfl⟩ := List.mem_map.mp he
    rfl
  have hid : ∀ e ∈ ((m.fields.mapValues fun name f => { f with name := name }).insertNew "id"
      { name := "id", type := .integer }).entries, e.2.name = e.1 := by
    intro e he
    rcases mem_insertNew he with rfl | he
    · rfl
    · exact hnamed e he
  unfold Model.complete at h
  dsimp only at h
  split at h
  · rcases mem_insertNew h with rfl | h
    · rfl
    · exact hid e h
  · exact hid e h

/-- What is checked of a model before it is put into the registry. -/
structure Admits (r : Registry) (m : Model) : Prop where
  name : Text.isModelName m.name
  table : Text.isIdentifier m.table
  fresh : r.models.contains m.name = false
  fields : ∀ field ∈ m.complete.fields.keys, Text.isIdentifier field

/-- A call puts the completed model under its name and does nothing else, or it fails and does nothing. -/
theorem attempt_cases (r : Registry) (m : Model) :
    (r.Admits m ∧ r.attempt m = (.ok (), { r with models := r.models.insert m.name m.complete })) ∨
      (¬r.Admits m ∧ ∃ fault, r.attempt m = (.error (.schema fault), r)) := by
  unfold attempt
  by_cases hname : Text.isModelName m.name
  case neg => exact .inr ⟨fun h => hname h.name, _, by rw [if_pos (by simpa using hname)]⟩
  by_cases htable : Text.isIdentifier m.table
  case neg =>
    exact .inr ⟨fun h => htable h.table, _, by rw [if_neg (by simpa using hname), if_pos (by simpa using htable)]⟩
  cases hfresh : r.models.contains m.name with
  | true =>
    refine .inr ⟨fun h => ?_, _, by rw [if_neg (by simpa using hname), if_neg (by simpa using htable), if_pos rfl]⟩
    rw [h.fresh] at hfresh
    cases hfresh
  | false =>
    rw [if_neg (by simpa using hname), if_neg (by simpa using htable), if_neg Bool.false_ne_true]
    dsimp only
    cases hfields : m.complete.fields.keys.find? (!Text.isIdentifier ·) with
    | some field =>
      refine .inr ⟨fun h => ?_, _, rfl⟩
      have hbad := List.find?_some hfields
      simp [h.fields field (List.mem_of_find?_eq_some hfields)] at hbad
    | none =>
      exact .inl ⟨⟨hname, htable, hfresh, by simpa using List.find?_eq_none.mp hfields⟩, rfl⟩

theorem register_eq_ok {r' : Registry} (h : r.register m = .ok r') :
    r.Admits m ∧ r' = { r with models := r.models.insert m.name m.complete } := by
  unfold register at h
  rcases attempt_cases r m with ⟨hm, heq⟩ | ⟨-, fault, heq⟩ <;> rw [heq] at h <;> cases h
  exact ⟨hm, rfl⟩

theorem Admits.named (h : r.Admits m) : ModelNamed m.complete where
  table := h.table
  fields e he := ⟨h.fields e.1 (List.mem_map_of_mem he), name_of_mem_complete he⟩

theorem Built.named (h : Built r) : ∀ e ∈ r.models.entries, ModelNamed e.2 := by
  induction h with
  | empty => exact nofun
  | register _ hr ih =>
    obtain ⟨hm, rfl⟩ := register_eq_ok hr
    intro e he
    rcases Keyed.of_mem_place he with rfl | he
    · exact hm.named
    · exact ih e he
  | registerHook _ _ _ ih => exact ih

/-- A registered model is kept under its own name. -/
theorem Built.name_eq (h : Built r) : ∀ e ∈ r.models.entries, e.2.name = e.1 := by
  induction h with
  | empty => exact nofun
  | register _ hr ih =>
    obtain ⟨-, rfl⟩ := register_eq_ok hr
    intro e he
    rcases Keyed.of_mem_place he with rfl | he
    · rfl
    · exact ih e he
  | registerHook _ _ _ ih => exact ih

/-! ### Models that were validated -/

theorem checkAll_eq_ok {α : Type} {check : α → Except Error Unit} {xs : List α} (h : checkAll check xs = .ok ()) :
    ∀ x ∈ xs, check x = .ok () := by
  induction xs with
  | nil => exact nofun
  | cons x rest ih =>
    unfold checkAll at h
    split at h
    · cases h
    · rename_i hx
      intro y hy
      rcases List.mem_cons.mp hy with rfl | hy
      · exact hx
      · exact ih h y hy

theorem checkReference_eq_ok {f : Field} (h : r.checkReference f = .ok ()) (hrelational : f.type.isRelational) :
    ∃ comodel target, f.comodel = some comodel ∧ r.model? comodel = some target ∧
      checkInverse f comodel target = .ok () ∧ checkRelation f = .ok () := by
  unfold checkReference at h
  rw [if_pos hrelational] at h
  split at h
  · cases h
  · rename_i comodel hcomodel
    split at h
    · cases h
    · rename_i target htarget
      split at h
      · cases h
      · rename_i hinverse
        exact ⟨comodel, target, hcomodel, htarget, hinverse, h⟩

/-- A registry whose models were registered and accepted. -/
structure Valid (r : Registry) : Prop where
  built : Built r
  validated : r.validate = .ok ()

/-- The model is in the registry. -/
def Has (r : Registry) (m : Model) : Prop := ∃ name, r.model? name = some m

/-- No search hook is registered. -/
def Hookless (r : Registry) : Prop := ∀ name, r.hook? name = none

theorem has_of_model (h : r.model name = .ok m) : r.Has m := by
  unfold model at h
  split at h <;> cases h
  rename_i hm
  exact ⟨name, hm⟩

theorem has_of_comodel {f : Field} (h : r.comodel f = .ok m) : r.Has m := by
  unfold comodel at h
  split at h
  · exact has_of_model h
  · cases h

theorem Built.name_of_model (h : Built r) (hm : r.model name = .ok m) : m.name = name := by
  unfold model at hm
  split at hm <;> cases hm
  rename_i hname
  exact h.name_eq _ (mem_of_lookup hname)

/-- A registered model is found under its own name. -/
theorem Built.model_eq (h : Built r) (hm : r.Has m) : r.model m.name = .ok m := by
  obtain ⟨name, hname⟩ := hm
  have heq : m.name = name := h.name_eq _ (mem_of_lookup hname)
  rw [heq, Registry.model, hname]

namespace Valid
variable {f : Field}

theorem named (h : r.Valid) (hm : r.Has m) : ModelNamed m := by
  obtain ⟨name, hm⟩ := hm
  exact h.built.named _ (mem_of_lookup hm)

theorem isIdentifier_table (h : r.Valid) (hm : r.Has m) : Text.isIdentifier m.table := (h.named hm).table

theorem isIdentifier_field (h : r.Valid) (hm : r.Has m) (hf : m.field? name = some f) : Text.isIdentifier name :=
  ((h.named hm).fields _ (mem_of_lookup hf)).1

theorem name_field (h : r.Valid) (hm : r.Has m) (hf : m.field? name = some f) : f.name = name :=
  ((h.named hm).fields _ (mem_of_lookup hf)).2

theorem checkModel (h : r.Valid) (hm : r.Has m) : r.checkModel m = .ok () := by
  obtain ⟨name, hm⟩ := hm
  exact checkAll_eq_ok h.validated m (List.mem_map_of_mem (f := Prod.snd) (mem_of_lookup hm))

theorem checkField (h : r.Valid) (hm : r.Has m) (hf : m.field? name = some f) : r.checkField m f = .ok () := by
  have hmodel := h.checkModel hm
  unfold Registry.checkModel at hmodel
  split at hmodel
  · cases hmodel
  · rename_i hfields
    exact checkAll_eq_ok hfields f (List.mem_map_of_mem (f := Prod.snd) (mem_of_lookup hf))

theorem checkReference (h : r.Valid) (hm : r.Has m) (hf : m.field? name = some f) : r.checkReference f = .ok () := by
  have hfield := h.checkField hm hf
  unfold Registry.checkField at hfield
  split at hfield
  · cases hfield
  · rename_i href
    exact href

/-- Only texts are translated. -/
theorem translate_eq_false (h : r.Valid) (hm : r.Has m) (hf : m.field? name = some f)
    (htype : f.type.isTranslatable = false) : f.translate = false := by
  have hfield := h.checkField hm hf
  unfold Registry.checkField at hfield
  split at hfield
  · cases hfield
  · simpa [htype] using hfield

/-- The link to a parent is a field of the model. -/
theorem isIdentifier_link (h : r.Valid) (hm : r.Has m) {parent link : String}
    (hlink : (parent, link) ∈ m.inherits.entries) : Text.isIdentifier link := by
  have hmodel := h.checkModel hm
  unfold Registry.checkModel at hmodel
  split at hmodel
  · cases hmodel
  · split at hmodel
    · cases hmodel
    · rename_i hinherits
      have hdelegation := checkAll_eq_ok hinherits _ hlink
      unfold Registry.checkDelegation at hdelegation
      split at hdelegation
      · cases hdelegation
      · split at hdelegation
        · rename_i f hf
          exact h.isIdentifier_field hm hf
        · cases hdelegation

/-- The relation table of a many2many field with a column, and its columns. -/
theorem isIdentifier_relation (h : r.Valid) (hm : r.Has m) (hf : m.field? name = some f)
    (htype : f.type = .many2many) (hstore : f.store) {relation : Relation} (hrel : f.relation = some relation) :
    Text.isIdentifier relation.table ∧ Text.isIdentifier relation.column1 ∧ Text.isIdentifier relation.column2 := by
  obtain ⟨_, _, _, _, -, hcheck⟩ := checkReference_eq_ok (h.checkReference hm hf) (by rw [htype]; rfl)
  unfold Registry.checkRelation at hcheck
  rw [if_pos (by simp [htype, hstore]), hrel] at hcheck
  dsimp only at hcheck
  split at hcheck
  · cases hcheck
  · rename_i hnone
    simpa using hnone

/-- The inverse of a one2many field is a field of the other model. -/
theorem isIdentifier_inverse (h : r.Valid) (hm : r.Has m) (hf : m.field? name = some f)
    (htype : f.type = .one2many) {inverse : String} (hinverse : f.inverseName = some inverse) :
    Text.isIdentifier inverse := by
  obtain ⟨comodel, target, -, htarget, hcheck, -⟩ := checkReference_eq_ok (h.checkReference hm hf) (by rw [htype]; rfl)
  unfold Registry.checkInverse at hcheck
  rw [if_pos htype, hinverse] at hcheck
  dsimp only at hcheck
  split at hcheck
  · rename_i hsome
    obtain ⟨g, hg⟩ := Option.isSome_iff_exists.mp hsome
    exact h.isIdentifier_field ⟨comodel, htarget⟩ hg
  · cases hcheck

/-- The comodel of a relational field is registered. -/
theorem comodel_eq_ok (h : r.Valid) (hm : r.Has m) (hf : m.field? name = some f) (htype : f.type.isRelational) :
    ∃ comodel, r.comodel f = .ok comodel := by
  obtain ⟨comodel, target, hcomodel, htarget, -, -⟩ := checkReference_eq_ok (h.checkReference hm hf) htype
  refine ⟨target, ?_⟩
  unfold Registry.comodel
  rw [hcomodel]
  dsimp only
  rw [Registry.model, htarget]

/-- The back reference of a one2many field is a field of the other model. -/
theorem inverse_eq_some (h : r.Valid) (hm : r.Has m) (hf : m.field? name = some f) (htype : f.type = .one2many)
    {comodel : Model} (hcomodel : r.comodel f = .ok comodel) {inverse : String} (hinverse : f.inverseName = some inverse) :
    ∃ g, comodel.field? inverse = some g := by
  obtain ⟨other, target, hother, htarget, hcheck, -⟩ := checkReference_eq_ok (h.checkReference hm hf) (by rw [htype]; rfl)
  rw [Registry.comodel, hother] at hcomodel
  dsimp only at hcomodel
  rw [Registry.model, htarget] at hcomodel
  cases hcomodel
  unfold Registry.checkInverse at hcheck
  rw [if_pos htype, hinverse] at hcheck
  dsimp only at hcheck
  split at hcheck
  · exact Option.isSome_iff_exists.mp ‹_›
  · cases hcheck

/-- A many2many field with a column has a relation table. -/
theorem relation_eq_some (h : r.Valid) (hm : r.Has m) (hf : m.field? name = some f) (htype : f.type = .many2many)
    (hstore : f.store) : ∃ relation, f.relation = some relation := by
  obtain ⟨_, _, -, -, -, hcheck⟩ := checkReference_eq_ok (h.checkReference hm hf) (by rw [htype]; rfl)
  unfold Registry.checkRelation at hcheck
  rw [if_pos (by simp [htype, hstore])] at hcheck
  cases hrelation : f.relation with
  | none =>
    rw [hrelation] at hcheck
    cases hcheck
  | some relation => exact ⟨relation, rfl⟩

end Valid
end Registry
end RecordFilter
