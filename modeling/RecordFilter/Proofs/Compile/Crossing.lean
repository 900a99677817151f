import RecordFilter.Proofs.Compile.Routes
import RecordFilter.Proofs.Compile.Spots

/-! A reference that a path goes through is joined, or the records behind it are searched. Where the reference leads to
    a record, the rest of the path holds past the join just where the search finds the record. Where it leads nowhere,
    the search finds nothing, but past the join the rest of the path is asked of nulls. -/

namespace RecordFilter
open Sql

variable {V : Type}

namespace Sql

/-- Two truth values that hold together. Where a negation is kept in front of them, they have to be the same. -/
structure Agree (kept : Bool) (t t' : Truth) : Prop where
  holds : t.holds = t'.holds
  same : kept = true → t = t'

namespace Agree
variable {kept : Bool} {t t' u u' : Truth}

theorem of_eq (h : t = t') : Agree kept t t' := ⟨congrArg _ h, fun _ => h⟩

/-- Where both are known, they are the same. -/
theorem of_known (h : t.holds = true ↔ t'.holds = true) (hknown : kept = true → t ≠ .unknown ∧ t' ≠ .unknown) :
    Agree kept t t' := by
  have hholds : t.holds = t'.holds := Bool.eq_iff_iff.mpr h
  refine ⟨hholds, fun hkept => ?_⟩
  obtain ⟨ht, ht'⟩ := hknown hkept
  exact Truth.eq_of_holds hholds (iff_of_false ht ht')

theorem not (h : Agree true t t') : Agree kept t.not t'.not := of_eq (congrArg Truth.not (h.same rfl))

theorem and (h : Agree kept t t') (h' : Agree kept u u') : Agree kept (t.and u) (t'.and u') where
  holds := by rw [Truth.holds_and, Truth.holds_and, h.holds, h'.holds]
  same hkept := by rw [h.same hkept, h'.same hkept]

theorem or (h : Agree kept t t') (h' : Agree kept u u') : Agree kept (t.or u) (t'.or u') where
  holds := by rw [Truth.holds_or, Truth.holds_or, h.holds, h'.holds]
  same hkept := by rw [h.same hkept, h'.same hkept]

end Agree

/-- No value is the id of two records of a model, and every record has the id that it has. -/
def Database.HasKeys (db : Database V) (r : Registry) : Prop :=
  ∀ m, r.Has m → db.TellsApart m.table "id" ∧ ∀ a ∈ db.records m.table, db.base.equals (a "id") (a "id") = true

theorem Database.HasKeys.identified {db : Database V} {r : Registry} (h : db.HasKeys r) : Compile.Identified db r := by
  intro m hm a ha b hb
  obtain ⟨hapart, hself⟩ := h m hm
  refine ⟨fun heq => hapart ha hb _ (hself a ha) heq, ?_⟩
  rintro rfl
  exact hself a ha

end Sql

namespace Compile

/-! ### The search behind a reference -/

/-- The query is one for the records of a model on which a leaf holds. -/
def Asks (c : Compiler) (target : Model) (l : Leaf) (q : Query) : Prop :=
  ∃ n, Builds (c.queryIn n) c.context target.name (.ofLeaf l.left l.op l.right) q

/-- What the rest of a path asks of nulls makes no difference, and neither does it where it asks something unknown. The
    queries are those for the records behind the reference. -/
structure CrossesSafely (db : Database V) (c : Compiler) (x : Spot) (link : String) (target : Model) (l : Leaf) : Prop where
  /-- The search is left out only where it would find nothing. -/
  skipped : (Domain.ofLeaf l.left l.op l.right).isFalse = .ok true → ∃ q, Asks c target l q ∧ ∀ a, ¬db.Selects q a
  /-- Every reference leads to a record, or the rest of the path does not hold on nulls. -/
  missing : (x.held ∧ db.Filled x.model link target) ∨
    (x.kept = false ∧ ∀ q, Asks c target l q → (q.condition.truth db.engine fun _ => none).holds = false)
  /-- Under a negation that is kept, the rest of the path is true or false of every record. -/
  known : x.kept = true → ∀ q, Asks c target l q → ∀ row ∈ db.tableRows q.tables,
    q.condition.truth db.engine row ≠ .unknown

/-- The reference on the row leads to a record that the query selects. -/
def Reaches (db : Database V) (x : Spot) (link : String) (target : Model) (row : Row V) (q : Query) : Prop :=
  ∃ b ∈ db.records target.table, db.base.equals (row ⟨x.place.tableAlias, link⟩) (b "id") = true ∧ db.Selects q b

section
variable {db : Database V} {c : Compiler} {m root target : Model} {d : Domain} {x : Spot} {link : String} {l : Leaf}
  {q : Query} {cond : Cond} {row row' : Row V}

/-- Where a negation is kept, the reference leads to a record. -/
theorem CrossesSafely.found (h : CrossesSafely db c x link target l) (hkept : x.kept = true)
    (hheld : x.held → row.record x.place.tableAlias ∈ db.records x.model.table) :
    ∃ b ∈ db.records target.table, db.base.equals (row ⟨x.place.tableAlias, link⟩) (b "id") = true := by
  rcases h.missing with ⟨hx, hfilled⟩ | ⟨hplain, -⟩
  · exact hfilled _ (hheld hx)
  · exact absurd (hkept.symm.trans hplain) Bool.noConfusion

/-- Past the join a leaf holds where the reference leads to a record that the search finds. -/
theorem CrossesSafely.joined (h : CrossesSafely db c x link target l) (hkeys : db.TellsApart target.table "id")
    (hq : Asks c target l (q.addCondition cond)) (htidy : Tidy db c m d root q) (hroot : root.table = target.table)
    (hfits : db.Fits (x.join link target) row)
    (hheld : x.held → row.record x.place.tableAlias ∈ db.records x.model.table) {t : Truth}
    (ht : ∀ row', (∀ j ∈ q.joins, db.Fits j row') →
      row.record (x.join link target).tableAlias = row'.record root.table → Agree x.kept t (cond.truth db.engine row')) :
    (t.holds = true ↔ Reaches db x link target row (q.addCondition cond)) ∧ (x.kept = true → t ≠ .unknown) := by
  have hlaid := htidy.laidFromRoot
  cases hfits with
  | found hmem heq =>
    have heq : db.base.equals (row ⟨x.place.tableAlias, link⟩) (row.record (x.join link target).tableAlias "id") = true :=
      heq
    have hmem' : row.record (x.join link target).tableAlias ∈ db.records root.table := hroot ▸ hmem
    -- The row of the query that has the record past the join.
    obtain ⟨row₁, hrow₁, hrecord⟩ := hlaid.exists_row hmem'
    have hagree := ht row₁ (hlaid.fits hrow₁).2 hrecord.symm
    refine ⟨⟨fun hholds => ?_, ?_⟩, fun hkept => ?_⟩
    · refine ⟨_, hmem, heq, (htidy.selects cond _).mpr ⟨row₁, hrow₁, ?_, hrecord⟩⟩
      rw [← hagree.holds]
      exact hholds
    · rintro ⟨b, hb, heq', hselects⟩
      cases hkeys hmem hb _ heq heq'
      obtain ⟨row₂, hrow₂, hholds, hrecord₂⟩ := (htidy.selects cond _).mp hselects
      rw [(ht row₂ (hlaid.fits hrow₂).2 hrecord₂.symm).holds]
      exact hholds
    · have hknown := h.known hkept _ hq row₁
      rw [htidy.condition, htidy.tables, ← hagree.same hkept] at hknown
      exact hknown hrow₁
  | missed hblank hnone =>
    have hnone : ∀ b ∈ db.records target.table, db.base.equals (row ⟨x.place.tableAlias, link⟩) (b "id") = false := hnone
    have hunreached : ¬Reaches db x link target row (q.addCondition cond) := fun ⟨b, hb, heq, _⟩ =>
      absurd ((hnone b hb).symm.trans heq) Bool.false_ne_true
    have hunfound : x.kept ≠ true := fun hkept => by
      obtain ⟨b, hb, heq⟩ := h.found hkept hheld
      exact absurd ((hnone b hb).symm.trans heq) Bool.false_ne_true
    refine ⟨iff_of_false (fun hholds => ?_) hunreached, fun hkept => absurd hkept hunfound⟩
    rcases h.missing with ⟨hx, hfilled⟩ | ⟨-, hnulls⟩
    · obtain ⟨b, hb, heq⟩ := hfilled _ (hheld hx)
      exact absurd ((hnone b hb).symm.trans heq) Bool.false_ne_true
    · -- Past the join there is nothing but nulls, as on a row without values.
      have hagree := ht (fun _ => none) (fun _ _ => Database.fits_blank) hblank
      have hfalse := hnulls _ hq
      rw [htidy.condition, ← hagree.holds] at hfalse
      exact absurd (hfalse.symm.trans hholds) Bool.false_ne_true

/-- The id of a record that the search finds is the reference. -/
theorem foundBy_selects (htidy : Tidy db c m d root q) (cond : Cond) :
    FoundBy db root.table (db.Selects (q.addCondition cond)) (.rows (inIdOrder (q.addCondition cond))) := by
  intro y
  refine (db.mem_rows_subselect (q := inIdOrder (q.addCondition cond)) htidy.window).trans ⟨?_, ?_⟩
  · rintro ⟨a, ha, hid⟩
    exact ⟨a, htidy.mem_of_selects ha, ha, hid⟩
  · rintro ⟨a, -, ha, hid⟩
    exact ⟨a, ha, hid⟩

/-- The condition that a reference leads to one of the found records. -/
abbrev refersTo (link : String) (target : Model) : Place → Found → Cond := Hop.condition ⟨link, .many2one, target⟩

/-- The reference is among the found ids where it leads to a record that the search finds. -/
theorem CrossesSafely.searched {r : Registry} {p : Place} (h : CrossesSafely db c x link target l) (hkeys : db.HasKeys r)
    (htarget : r.Has target) (htidy : Tidy db c m d root q) (hroot : root.table = target.table)
    (hheld : x.held → row.record x.place.tableAlias ∈ db.records x.model.table)
    (hrow : row.record x.place.tableAlias = row'.record p.tableAlias) :
    let t := (refersTo link target p (.rows (inIdOrder (q.addCondition cond)))).truth db.engine row'
    (t.holds = true ↔ Reaches db x link target row (q.addCondition cond)) ∧ (x.kept = true → t ≠ .unknown) := by
  have hfound := hroot ▸ foundBy_selects htidy cond
  refine ⟨Hop.holds_condition hkeys.identified htarget (fun name => (congrFun hrow name).symm) hfound, fun hkept => ?_⟩
  obtain ⟨b, -, heq⟩ := h.found hkept hheld
  obtain ⟨v, hv⟩ := Option.isSome_iff_exists.mp (db.base.isSome_left_of_equals heq)
  have hcolumn : row' ⟨p.tableAlias, link⟩ = some v := (congrFun hrow link).symm.trans hv
  show db.engine.member (row' ⟨p.tableAlias, link⟩) _ ≠ .unknown
  rw [hcolumn]
  refine db.engine.member_some v fun y hy => ?_
  -- Every record has an id.
  obtain ⟨a, ha, -, rfl⟩ := (hfound y).mp hy
  exact Option.isSome_iff_ne_none.mp (db.base.isSome_of_equals ((hkeys target htarget).2 a ha))

/-- Past the join a leaf says of a row what the search says of the reference. -/
theorem CrossesSafely.agree {r : Registry} {p : Place} {n : Nat} {found : Found} {t : Truth}
    (h : CrossesSafely db c x link target l) (hkeys : db.HasKeys r) (htarget : r.Has target)
    (hroot : root.table = target.table) (hfits : db.Fits (x.join link target) row)
    (hheld : x.held → row.record x.place.tableAlias ∈ db.records x.model.table)
    (hrow : row.record x.place.tableAlias = row'.record p.tableAlias)
    (hfound : Finds (c.queryIn n) c.context target.name (.ofLeaf l.left l.op l.right) found)
    (ht : ∀ q, Asks c target l q → ∃ q₁ cond, q = q₁.addCondition cond ∧ Tidy db c m d root q₁ ∧
      ∀ row', (∀ j ∈ q₁.joins, db.Fits j row') → row.record (x.join link target).tableAlias = row'.record root.table →
        Agree x.kept t (cond.truth db.engine row')) :
    Agree x.kept t ((refersTo link target p found).truth db.engine row') := by
  have hapart := (hkeys target htarget).1
  cases hfound with
  | nothing hfalse =>
    obtain ⟨q, hq, hnone⟩ := h.skipped hfalse
    obtain ⟨q₁, cond, rfl, htidy, hagree⟩ := ht q hq
    obtain ⟨hholds, hknown⟩ := h.joined hapart hq htidy hroot hfits hheld hagree
    refine .of_known (hholds.trans (iff_of_false ?_ nofun)) fun hkept => ⟨hknown hkept, nofun⟩
    rintro ⟨b, -, -, hselects⟩
    exact hnone b hselects
  | @rows q hbuilds =>
    have hq : Asks c target l q := ⟨n, hbuilds⟩
    obtain ⟨q₁, cond, rfl, htidy, hagree⟩ := ht q hq
    obtain ⟨hholds, hknown⟩ := h.joined hapart hq htidy hroot hfits hheld hagree
    obtain ⟨hholds', hknown'⟩ := h.searched (p := p) hkeys htarget htidy hroot hheld hrow
    exact .of_known (hholds.trans hholds'.symm) fun hkept => ⟨hknown hkept, hknown' hkept⟩

/-! ### The leaf on the reference -/

/-- A leaf on a reference and the found ids becomes the condition that the reference is among them. -/
theorem Refers.reduce_yields {s : Setting} {build : QueryBuilder} {p : Place} {f : Field}
    (h : Refers s.registry p.model link f target) (hdotless : '.' ∉ link.toList) (found : Found) :
    (reduce s build ⟨link, .within, found.operand⟩ p).Yields (.emit (refersTo link target p found)) := by
  have hclass : classify s.registry p.model ⟨link, .within, found.operand⟩ = .ok (.many2one target) := by
    have hpath : (Leaf.mk link .within found.operand).path = (link, none) := Leaf.path_of_dotless hdotless
    rw [classify_local (by rw [hpath]; exact h.field), hpath]
    simp [Operator.isHierarchy, classifyField, h.store, h.type, h.comodel, Except.map]
  refine reduce_of_classify (by simp) hclass ?_
  cases found with
  | nothing => exact emitLeaf_yields (plainCondition_nil h.field)
  | rows q => exact emitLeaf_yields (plainCondition_subquery h.field q.ids)

end
end Compile
end RecordFilter
