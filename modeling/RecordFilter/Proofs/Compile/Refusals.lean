import RecordFilter.Proofs.Compile.PlainLeaves

/-! The leaves that cannot be conditions on columns. Whether a leaf is refused does not depend on the column: it goes by
    the operator and by the kind of the operand, and each kind of refusal has an error of its own. Numbers and texts are
    never looked into. -/

namespace RecordFilter

/-- Operators that compare with one value as it is. -/
def Operator.isSingle : Operator → Bool
  | eq | ne | lt | le | gt | ge | eqIfSet | eqLike | eqIlike => true
  | _ => false

/-- An operator takes lists, records of a hierarchy, parts of texts, or single values. -/
theorem Operator.isSingle_of_not {op : Operator} (hlist : op.isMembership = false) (hlevel : op.isHierarchy = false)
    (hpart : op.isContains = false) : op.isSingle := by
  cases op <;> first | rfl | contradiction

namespace Leaf

/-- The comparison that is left of a leaf whose operand is set: an optional equality is an equality then. -/
def compared (l : Leaf) : Leaf :=
  match l.op with
  | .eqIfSet => { l with op := .eq }
  | _ => l

/-- The leaf is refused on every column, with an error: its operator takes no subquery, takes lists and gets something
    else, takes lists of single values and gets one with a list or an object in it, takes no literal at all, or takes
    single values and gets a list or an object. -/
inductive Refused (l : Leaf) : Error → Prop
  | subquery {s : Sql.Select} : l.right = .subquery s → l.op.isMembership = false →
      Refused l (.invalidLeaf l.text .subqueryOperator)
  | unlisted {v : Json} : l.right = .value v → l.op.isMembership → (∀ b, v ≠ .bool b) → (∀ items, v ≠ .arr items) →
      Refused l (.invalidLeaf l.text (.needsList l.op))
  | nested {items : List Json} {v : Json} : l.right = .value (.arr items) → l.op.isMembership → v ∈ items →
      v.isScalar = false → Refused l (.invalidLeaf l.text .nested)
  | hierarchy {v : Json} : l.right = .value v → l.op.isHierarchy → Refused l (.invalidLeaf l.text (.needsRelation l.op))
  | compound {v : Json} : l.right = .value v → l.op.isSingle → v.isScalar = false →
      Refused l (.invalidLeaf l.compared.text (.needsScalar l.compared.op))

end Leaf

namespace Compile
open Sql

variable {l : Leaf} {column : Column} {v : Json} {isBoolean unaccent : Bool} {p : Place} {ctx : Context} {e : Error}

/-! ### What can be bound -/

theorem ofJson?_eq_none : Param.ofJson? v = none ↔ v.isScalar = false := by
  cases v <;> simp [Param.ofJson?, Json.isScalar]

theorem Wanted.addItem?_eq_none {w : Wanted} : w.addItem? isBoolean v = none ↔ v.isScalar = false := by
  cases v with
  | bool b => cases isBoolean <;> cases b <;> exact iff_of_false nofun nofun
  | arr items => exact iff_of_true rfl rfl
  | obj members => exact iff_of_true rfl rfl
  | _ => exact iff_of_false nofun nofun

/-- A list is refused for any item that is no single value, wherever it stands. -/
theorem Wanted.addItems?_eq_none {w : Wanted} {items : List Json} :
    w.addItems? isBoolean items = none ↔ ∃ v ∈ items, v.isScalar = false := by
  induction items generalizing w with
  | nil => exact iff_of_false nofun fun ⟨_, hv, _⟩ => nomatch hv
  | cons item rest ih =>
    simp only [addItems?, List.mem_cons, exists_eq_or_imp]
    cases hitem : w.addItem? isBoolean item with
    | none => exact iff_of_true rfl (.inl (addItem?_eq_none.mp hitem))
    | some w' =>
      have hscalar : ¬item.isScalar = false := fun h => by
        rw [addItem?_eq_none.mpr h] at hitem
        cases hitem
      exact ih.trans (or_iff_right hscalar).symm

/-! ### Errors are refusals -/

theorem inSubquery_refused {s : Select} (hs : l.right = .subquery s) (h : inSubquery l column s = .error e) :
    l.Refused e := by
  unfold inSubquery at h
  split at h <;> cases h
  rename_i hwithin hnotIn
  exact .subquery hs (by cases hop : l.op <;> first | rfl | contradiction)

theorem inValues_refused (hv : l.right = .value v) (hop : l.op.isMembership) (h : inValues l column v isBoolean = .error e) :
    l.Refused e := by
  unfold inValues at h
  dsimp only at h
  split at h
  · cases h
  · split at h <;> cases h
    rename_i hnone
    obtain ⟨item, hitem, hscalar⟩ := Wanted.addItems?_eq_none.mp hnone
    exact .nested hv hop hitem hscalar
  · rename_i hbool harr
    cases h
    exact .unlisted hv hop hbool harr

theorem comparison_eq_error (h : comparison l column v unaccent = .error e) :
    l.op.isContains = false ∧ v.isScalar = false ∧ e = .invalidLeaf l.text (.needsScalar l.op) := by
  unfold comparison at h
  dsimp only at h
  split at h
  · rename_i hparam
    cases h
    cases hpart : l.op.isContains with
    | true => simp [hpart] at hparam
    | false => exact ⟨rfl, ofJson?_eq_none.mp (by simpa [hpart] using hparam), rfl⟩
  · split at h <;> cases h

theorem equality_eq_error (h : equality l column v isBoolean unaccent = .error e) :
    l.op.isContains = false ∧ v.isScalar = false ∧ e = .invalidLeaf l.text (.needsScalar l.op) := by
  unfold equality at h
  split at h
  · cases h
  · cases h
  · cases h
  · cases h
  · cases h
  · exact comparison_eq_error h

/-- An equality is a comparison unless it asks for an unset value or for one of a boolean column. -/
theorem equalityIf_eq_error {special : Bool}
    (h : (if special then equality l column v isBoolean unaccent else comparison l column v unaccent) = .error e) :
    l.op.isContains = false ∧ v.isScalar = false ∧ e = .invalidLeaf l.text (.needsScalar l.op) := by
  cases special
  · exact comparison_eq_error h
  · exact equality_eq_error h

/-- A comparison that fails, of the leaf itself or of the equality that it stands for, refuses the leaf. -/
theorem refused_of_compared {l' : Leaf} (hl' : l.compared = l') (hv : l.right = .value v)
    (hlist : l.op.isMembership = false) (hlevel : l.op.isHierarchy = false)
    (h : l'.op.isContains = false ∧ v.isScalar = false ∧ e = .invalidLeaf l'.text (.needsScalar l'.op)) :
    l.Refused e := by
  subst hl'
  obtain ⟨hpart, hscalar, rfl⟩ := h
  have hsingle : l.op.isSingle := by
    unfold Leaf.compared at hpart
    split at hpart
    · rename_i hop
      rw [hop]
      rfl
    · exact Operator.isSingle_of_not hlist hlevel hpart
  exact .compound hv hsingle hscalar

theorem literalLeaf_refused (hv : l.right = .value v) (h : literalLeaf l column v isBoolean unaccent = .error e) :
    l.Refused e := by
  unfold literalLeaf at h
  split at h
  · rename_i hop
    exact inValues_refused hv (by rw [hop]; rfl) h
  · rename_i hop
    exact inValues_refused hv (by rw [hop]; rfl) h
  · rename_i hop
    cases h
    exact .hierarchy hv (by rw [hop]; rfl)
  · rename_i hop
    cases h
    exact .hierarchy hv (by rw [hop]; rfl)
  · rename_i hop
    have hcompared : l.compared = { l with op := .eq } := by rw [Leaf.compared, hop]
    refine refused_of_compared hcompared hv (by rw [hop]; rfl) (by rw [hop]; rfl) ?_
    split at h
    · cases h
    · exact equalityIf_eq_error h
  · rename_i hop
    have hcompared : l.compared = l := by rw [Leaf.compared, hop]
    exact refused_of_compared hcompared hv (by rw [hop]; rfl) (by rw [hop]; rfl) (equalityIf_eq_error h)
  · rename_i hop
    have hcompared : l.compared = l := by rw [Leaf.compared, hop]
    exact refused_of_compared hcompared hv (by rw [hop]; rfl) (by rw [hop]; rfl) (equalityIf_eq_error h)
  · rename_i hwithin hnotIn hchild hparent hset _ _
    have hcompared : l.compared = l := by
      unfold Leaf.compared
      split
      · exact absurd ‹_› hset
      · rfl
    have hlist : l.op.isMembership = false := by
      cases hop : l.op <;> first | rfl | exact absurd hop hwithin | exact absurd hop hnotIn
    have hlevel : l.op.isHierarchy = false := by
      cases hop : l.op <;> first | rfl | exact absurd hop hchild | exact absurd hop hparent
    exact refused_of_compared hcompared hv hlist hlevel (comparison_eq_error h)

theorem plainCondition_refused {f : Field} (hf : p.model.field? l.left = some f) (h : plainCondition l p ctx = .error e) :
    l.Refused e := by
  unfold plainCondition at h
  rw [hf] at h
  dsimp only at h
  split at h
  · exact inSubquery_refused ‹_› h
  · exact literalLeaf_refused ‹_› h

/-! ### Refusals are errors -/

theorem literalLeaf_of_membership (hop : l.op.isMembership) :
    literalLeaf l column v isBoolean unaccent = inValues l column v isBoolean := by
  unfold literalLeaf
  cases hlop : l.op <;> first | rfl | (rw [hlop] at hop; cases hop)

theorem inValues_of_unlisted (hbool : ∀ b, v ≠ .bool b) (harr : ∀ items, v ≠ .arr items) :
    inValues l column v isBoolean = .error (.invalidLeaf l.text (.needsList l.op)) := by
  cases v with
  | bool b => exact absurd rfl (hbool b)
  | arr items => exact absurd rfl (harr items)
  | _ => rfl

theorem inValues_of_nested {items : List Json} (h : ∃ item ∈ items, item.isScalar = false) :
    inValues l column (.arr items) isBoolean = .error (.invalidLeaf l.text .nested) := by
  rw [inValues, Wanted.ofItems?, Wanted.addItems?_eq_none.mpr h]

theorem comparison_of_compound (hsingle : l.op.isSingle) (hscalar : v.isScalar = false) :
    comparison l column v unaccent = .error (.invalidLeaf l.text (.needsScalar l.op)) := by
  have hpart : l.op.isContains = false := by
    cases hop : l.op <;> first | rfl | (rw [hop] at hsingle; cases hsingle)
  rw [comparison, hpart, ofJson?_eq_none.mpr hscalar]
  rfl

/-- A list or an object is neither unset nor a boolean. -/
theorem equality_of_compound (hscalar : v.isScalar = false) :
    equality l column v isBoolean unaccent = comparison l column v unaccent := by
  cases v with
  | arr items => cases isBoolean <;> cases hop : l.op <;> simp [equality, hop, Json.isUnset]
  | obj members => cases isBoolean <;> cases hop : l.op <;> simp [equality, hop, Json.isUnset]
  | _ => cases hscalar

theorem literalLeaf_of_compound (hop : l.op.isSingle) (hscalar : v.isScalar = false) :
    literalLeaf l column v isBoolean unaccent =
      .error (.invalidLeaf l.compared.text (.needsScalar l.compared.op)) := by
  have hset : v.isUnset = false := by
    cases v with
    | arr items => rfl
    | obj members => rfl
    | _ => cases hscalar
  have hsingle : l.compared.op.isSingle := by
    unfold Leaf.compared
    split
    · rfl
    · exact hop
  have hliteral : literalLeaf l column v isBoolean unaccent = comparison l.compared column v unaccent := by
    unfold literalLeaf Leaf.compared
    cases hlop : l.op <;> rw [hlop] at hop <;>
      first | exact absurd hop Bool.false_ne_true | simp [hset, equality_of_compound hscalar]
  rw [hliteral, comparison_of_compound hsingle hscalar]

theorem plainCondition_of_refused {f : Field} (hf : p.model.field? l.left = some f) (h : l.Refused e) :
    plainCondition l p ctx = .error e := by
  unfold plainCondition
  rw [hf]
  cases h with
  | subquery hs hop =>
    rw [hs]
    cases hlop : l.op <;> simp_all [inSubquery, Operator.isMembership]
  | unlisted hv hop hbool harr =>
    rw [hv]
    exact (literalLeaf_of_membership hop).trans (inValues_of_unlisted hbool harr)
  | nested hv hop hitem hscalar =>
    rw [hv]
    exact (literalLeaf_of_membership hop).trans (inValues_of_nested ⟨_, hitem, hscalar⟩)
  | hierarchy hv hop =>
    rw [hv]
    cases hlop : l.op <;> simp_all [literalLeaf, Operator.isHierarchy]
  | compound hv hop hscalar =>
    rw [hv]
    exact literalLeaf_of_compound hop hscalar

/-! ### The whole -/

/-- A leaf has no condition on a column just where the model has no field of that name, or else where the leaf is refused
    on every column; and then the error is the one for its case. -/
theorem plainCondition_refusals (l : Leaf) (p : Place) (ctx : Context) (e : Error) :
    plainCondition l p ctx = .error e ↔
      p.model.field? l.left = none ∧ e = .invalidField p.model.name l.left l.text ∨
        (p.model.field? l.left).isSome ∧ l.Refused e := by
  cases hf : p.model.field? l.left with
  | none => simp [plainCondition, hf, eq_comm]
  | some f => simpa using ⟨plainCondition_refused hf, plainCondition_of_refused hf⟩

end Compile
end RecordFilter
