import RecordFilter.Compile.Related
import RecordFilter.Proofs.Domain.Leafwise
import RecordFilter.Proofs.Sql.Joins

/-! What the condition of a leaf says depends on the record at the leaf's place and on the values of its operand, not
    on the alias of the place or on the subquery that gives the values. -/

namespace RecordFilter
open Sql

variable {V : Type} (db : Database V)

/-- Two operands that stand for the same values in the database: a subquery may be written in another way. -/
inductive Operand.SameIn : Operand → Operand → Prop
  | value (v : Json) : SameIn (.value v) (.value v)
  | subquery {s s' : Select} : (∀ x, x ∈ db.engine.rows s ↔ x ∈ db.engine.rows s') →
      SameIn (.subquery s) (.subquery s')

namespace Operand.SameIn
variable {db} {r r' : Operand}

theorem refl (r : Operand) : r.SameIn db r := by
  cases r with
  | value v => exact .value v
  | subquery s => exact .subquery fun _ => Iff.rfl

theorem isEmptySet (h : r.SameIn db r') : r'.isEmptySet = r.isEmptySet := by cases h <;> rfl

theorem isUnset (h : r.SameIn db r') : r'.isUnset = r.isUnset := by cases h <;> rfl

theorem isTruthy (h : r.SameIn db r') : r'.isTruthy = r.isTruthy := by cases h <;> rfl

end Operand.SameIn

namespace Compile

/-- Two conditions that are as true of a row with a record at the one place as of a row with it at the other place. -/
def SaysSame (p p' : Place) (c c' : Cond) : Prop :=
  ∀ ⦃row row' : Row V⦄, row.record p.tableAlias = row'.record p'.tableAlias →
    c.truth db.engine row = c'.truth db.engine row'

/-! ### Values -/

section
variable {e : Engine V} {row row' : Row V} {column column' : Column} {c c' : Cond} {l : Leaf} {v : Json}
  {isBoolean unaccent : Bool}

theorem Wanted.condition_same (w : Wanted) {left left' : Expr} (hleft : left.value e row = left'.value e row')
    (hrow : row column = row' column') (positive : Bool) :
    (w.condition left column positive).truth e row = (w.condition left' column' positive).truth e row' := by
  unfold Wanted.condition
  split <;> simp only [Cond.truth, hleft, hrow]

theorem inValues_same (h : inValues l column v isBoolean = .ok c) (h' : inValues l column' v isBoolean = .ok c')
    (hrow : row column = row' column') : c.truth e row = c'.truth e row' := by
  unfold inValues at h h'
  dsimp only at h h'
  split at h
  · cases h
    cases h'
    split <;> simp only [Cond.truth, hrow]
  · split at h
    · rename_i w hw
      simp only [hw] at h'
      cases h
      cases h'
      have hleft : (Expr.column column).value e row = (Expr.column column').value e row' := hrow
      exact w.condition_same hleft hrow _
    · cases h
  · cases h

theorem comparison_same (h : comparison l column v unaccent = .ok c) (h' : comparison l column' v unaccent = .ok c')
    (hrow : row column = row' column') : c.truth e row = c'.truth e row' := by
  have hleft : (if l.op.isPattern then Expr.cast column else .column column).value e row =
      (if l.op.isPattern then Expr.cast column' else .column column').value e row' := by
    split <;> simp only [Expr.value, hrow]
  unfold comparison at h h'
  dsimp only at h h'
  split at h
  · cases h
  · rename_i p hp
    simp only [hp] at h'
    split at h
    · rename_i hnull
      rw [if_pos hnull] at h'
      cases h
      cases h'
      simp only [Cond.truth, hleft, hrow]
    · rename_i hnull
      rw [if_neg hnull] at h'
      cases h
      cases h'
      simp only [Cond.truth, hleft]

theorem equality_same (h : equality l column v isBoolean unaccent = .ok c)
    (h' : equality l column' v isBoolean unaccent = .ok c') (hrow : row column = row' column') :
    c.truth e row = c'.truth e row' := by
  unfold equality at h h'
  split at h
  case h_6 => split at h' <;> first | exact comparison_same h h' hrow | simp_all
  all_goals
    rename_i hop hunset
    simp only [hop, hunset] at h'
    cases h
    cases h'
    simp only [Cond.truth, hrow]

theorem literalLeaf_same (h : literalLeaf l column v isBoolean unaccent = .ok c)
    (h' : literalLeaf l column' v isBoolean unaccent = .ok c') (hrow : row column = row' column') :
    c.truth e row = c'.truth e row' := by
  unfold literalLeaf at h h'
  split at h
  case h_1 hop | h_2 hop =>
    simp only [hop] at h'
    exact inValues_same h h' hrow
  case h_3 | h_4 => cases h
  case h_5 hop =>
    simp only [hop] at h'
    split at h
    · rename_i hunset
      rw [if_pos hunset] at h'
      cases h
      cases h'
      rfl
    · rename_i hset
      rw [if_neg hset] at h'
      split at h
      · rename_i hboolean
        rw [if_pos hboolean] at h'
        exact equality_same h h' hrow
      · rename_i hboolean
        rw [if_neg hboolean] at h'
        exact comparison_same h h' hrow
  case h_6 hop | h_7 hop =>
    simp only [hop] at h'
    split at h
    · rename_i hequality
      rw [if_pos hequality] at h'
      exact equality_same h h' hrow
    · rename_i hcomparison
      rw [if_neg hcomparison] at h'
      exact comparison_same h h' hrow
  case h_8 => split at h' <;> first | exact comparison_same h h' hrow | simp_all

end

/-! ### Leaves -/

variable {db} {p p' : Place} {l l' : Leaf} {c c' : Cond} {ctx : Context}

theorem SaysSame.literal (b : Bool) : SaysSame db p p' (.literal b) (.literal b) := fun _ _ _ => rfl

theorem inSubquery_same {sub sub' : Select} (hsub : ∀ x, x ∈ db.engine.rows sub ↔ x ∈ db.engine.rows sub')
    {field : String} (h : inSubquery l (p.column field) sub = .ok c)
    (h' : inSubquery l' (p'.column field) sub' = .ok c') (hop : l'.op = l.op) : SaysSame db p p' c c' := by
  intro row row' hrow
  have hcolumn : row (p.column field) = row' (p'.column field) := congrFun hrow field
  have hmember := db.engine.member_congr hsub (row (p.column field))
  unfold inSubquery at h h'
  rw [hop] at h'
  split at h
  case h_3 => cases h
  all_goals
    rename_i hop'
    simp only [hop'] at h'
    cases h
    cases h'
    simp only [Cond.truth, Expr.value, Values.members, ← hcolumn, hmember]

/-- A leaf on a column. -/
theorem plainCondition_same (hl : l.Over (Operand.SameIn db) l')
    (htypes : ∀ name, (p'.model.field? name).map (·.type) = (p.model.field? name).map (·.type))
    (h : plainCondition l p ctx = .ok c) (h' : plainCondition l' p' ctx = .ok c') : SaysSame db p p' c c' := by
  obtain ⟨left, op, right⟩ := l
  obtain ⟨left', op', right'⟩ := l'
  obtain ⟨rfl, rfl, hright⟩ := hl
  unfold plainCondition at h h'
  have htype := htypes left'
  dsimp only at h h' hright
  split at h
  · cases h
  · rename_i f hf
    split at h'
    · cases h'
    · rename_i f' hf'
      rw [hf, hf'] at htype
      have htype : f'.type = f.type := Option.some.inj htype
      cases hright with
      | value v =>
        dsimp only at h h'
        rw [htype] at h'
        exact fun row row' hrow => literalLeaf_same h h' (congrFun hrow left')
      | subquery hsub =>
        dsimp only at h h'
        exact inSubquery_same hsub h h' rfl

/-- A leaf on the value of a column in a language. -/
theorem translatedCondition_same (hl : l.Over (Operand.SameIn db) l') (h : translatedCondition l p ctx = .ok c)
    (h' : translatedCondition l' p' ctx = .ok c') : SaysSame db p p' c c' := by
  obtain ⟨left, op, right⟩ := l
  obtain ⟨left', op', right'⟩ := l'
  obtain ⟨rfl, rfl, hright⟩ := hl
  intro row row' hrow
  have hcolumn : row (p.column left') = row' (p'.column left') := congrFun hrow left'
  have hleft : (Expr.translated (p.column left') ctx.lang).value db.engine row =
      (Expr.translated (p'.column left') ctx.lang).value db.engine row' := by
    simp only [Expr.value, hcolumn]
  unfold translatedCondition at h h'
  dsimp only at h h' hright
  cases hright with
  | subquery => cases h
  | value v =>
    dsimp only at h h'
    split at h
    · rename_i hop
      rw [if_pos hop] at h'
      split at h
      · split at h
        · rename_i w hw
          simp only [hw] at h'
          cases h
          cases h'
          exact w.condition_same hleft hcolumn _
        · cases h
      · cases h
    · rename_i hop
      rw [if_neg hop] at h'
      split at h
      · cases h
      · rename_i bound hbound
        simp only [hbound] at h'
        cases h
        cases h'
        split <;> simp only [Cond.truth, hleft, hcolumn]

/-- Two descriptions of the same records. -/
inductive Related.SameIn (db : Database V) : Related → Related → Prop
  | ids (ids : List Int) : SameIn db (.ids ids) (.ids ids)
  | rows {s s' : Select} : (∀ x, x ∈ db.engine.rows s ↔ x ∈ db.engine.rows s') → SameIn db (.rows s) (.rows s')

theorem linked_same {link link' : Link} {row row' : Row V} (hrow : row ⟨link.owner, "id"⟩ = row' ⟨link'.owner, "id"⟩)
    (htable : link'.table = link.table) (hcolumn : link'.column1 = link.column1)
    (hcolumn' : link'.column2 = link.column2) {s s' : Values}
    (hset : ∀ x, x ∈ s.members db.engine ↔ x ∈ s'.members db.engine) (positive : Bool) :
    (Cond.linked positive link s).truth db.engine row = (Cond.linked positive link' s').truth db.engine row' := by
  have hlinks : ∀ id, db.engine.linked link' id = db.engine.linked link id := fun id => by
    show db.links link' id = db.links link id
    rw [Database.links, Database.links, htable, hcolumn, hcolumn']
  have hmember : ∀ id, db.engine.member id (s.members db.engine) = db.engine.member id (s'.members db.engine) :=
    fun id => db.engine.member_congr hset id
  simp only [Cond.truth, hrow, hlinks, hmember]

/-- A condition on the rows of a relation table. -/
theorem linkedTo_same (name : String) (relation : Relation) (positive : Bool) {related related' : Related}
    (h : related.SameIn db related') :
    SaysSame db p p' (linkedTo p name relation positive related) (linkedTo p' name relation positive related') := by
  intro row row' hrow
  have hid : row ⟨(linkedTo.link p name relation).owner, "id"⟩ = row' ⟨(linkedTo.link p' name relation).owner, "id"⟩ :=
    congrFun hrow "id"
  cases h with
  | ids ids =>
    cases ids with
    | nil => rfl
    | cons id rest => exact linked_same hid rfl rfl rfl (fun _ => Iff.rfl) positive
  | @rows sub sub' hsub =>
    have hset : ∀ x, x ∈ (Values.select sub).members db.engine ↔ x ∈ (Values.select sub').members db.engine := hsub
    exact linked_same hid rfl rfl rfl hset positive

/-- The owners of lines that are given in two ways. -/
theorem owners_same (table column : String) {s t : Values}
    (hset : ∀ x, x ∈ s.members db.engine ↔ x ∈ t.members db.engine) (x : Option V) :
    x ∈ db.engine.rows (.owners table column s) ↔ x ∈ db.engine.rows (.owners table column t) := by
  rw [Database.mem_owners, Database.mem_owners]
  simp only [db.engine.member_congr hset]

end Compile
end RecordFilter
