import RecordFilter.Proofs.Compile.Lines
import RecordFilter.Proofs.Compile.PathTexts
import RecordFilter.Proofs.Compile.PlainLeaves
import RecordFilter.Proofs.Compile.Routes

/-! Leaves that ask for records of a relation, and their negations. Each is encoded in a way of its own, as ids in
    a list, as owners of lines, as rows of a relation table or as a constant. Whatever the way, the condition is known of
    every record with an id and says of it whether it has, or lacks, what the leaf asks for, and so no record falls
    between a leaf and its negation. -/

namespace RecordFilter
open Sql

/-- The answers of the database do not depend on what it was asked before. -/
structure Backend.Steady (b : Backend) : Prop where
  search : ∀ history history' m d options, b.search history m d options = b.search history' m d options
  names : ∀ history history' m name op options,
    b.findByName history m name op options = b.findByName history' m name op options
  references : ∀ history history' m ids field, b.references history m ids field = b.references history' m ids field
  parentPaths : ∀ history history' m ids, b.parentPaths history m ids = b.parentPaths history' m ids

namespace Operator

/-- Operators that are the positive or the negative one of a pair. -/
def isPaired : Operator → Bool
  | eq | ne | within | notIn | like | notLike | ilike | notIlike => true
  | _ => false

/-- The positive operator of a pair. -/
def positive (op : Operator) : Operator := if op.isNegative then op.negate?.getD op else op

variable {op op' : Operator}

theorem isPaired_negate (h : op.isPaired) (hop : op.negate? = some op') : op'.isPaired := by
  cases op <;> cases h <;> cases hop <;> rfl

theorem isNegative_negate (h : op.isPaired) (hop : op.negate? = some op') : op'.isNegative = !op.isNegative := by
  cases op <;> cases h <;> cases hop <;> rfl

theorem positive_negate (h : op.isPaired) (hop : op.negate? = some op') : op'.positive = op.positive := by
  cases op <;> cases h <;> cases hop <;> rfl

theorem negate?_negate (h : op.isPaired) (hop : op.negate? = some op') : op'.negate? = some op := by
  cases op <;> cases h <;> cases hop <;> rfl

theorem isHierarchy_of_isPaired (h : op.isPaired) : op.isHierarchy = false := by
  cases op <;> cases h <;> rfl

theorem ne_eqIfSet_of_isPaired (h : op.isPaired) : op ≠ .eqIfSet := by
  rintro rfl
  cases h

end Operator

/-! ### Runs that go one way -/

namespace Run
variable {α β : Type} {x : Run α} {f : α → Run β} {a : α}

/-- From every trace the run stops with an error. -/
def Errs (x : Run α) : Prop := ∀ t, ∃ e t', x.Stops t (.error e) t'

theorem Errs.fail (e : Error) : (Run.fail e : Run α).Errs := fun t => ⟨e, t, rfl⟩

theorem Errs.ofExcept {y : Except Error α} {e : Error} (h : y = .error e) : (Run.ofExcept y).Errs := h ▸ fail e

theorem Errs.bind (h : x.Errs) : (x >>= f).Errs := fun t => by
  obtain ⟨e, t', hstops⟩ := h t
  exact ⟨e, t', stops_bind.mpr (.inl hstops)⟩

theorem Yields.errs (h : x.Yields a) (hf : (f a).Errs) : (x >>= f).Errs := fun t => by
  obtain ⟨t₁, hgives⟩ := h t
  obtain ⟨e, t', hstops⟩ := hf t₁
  exact ⟨e, t', stops_bind.mpr (.inr ⟨a, t₁, hgives, hstops⟩)⟩

/-- What the rest of a run gives, the run gives. -/
theorem Yields.andThen {P : β → Prop} (h : x.Yields a) (hf : ∃ b, (f a).Yields b ∧ P b) :
    ∃ b, (x >>= f).Yields b ∧ P b := by
  obtain ⟨b, hb, hP⟩ := hf
  exact ⟨b, h.bind hb, hP⟩

theorem Errs.not_yields (h : x.Errs) : ¬x.Yields a := fun hyields => by
  obtain ⟨e, t', hstops⟩ := h {}
  obtain ⟨t₁, hgives⟩ := hyields {}
  cases hstops.symm.trans hgives

/-- An answer that does not depend on the history. -/
theorem answer_yields {c : Call} {answer : List Call → Except Error α} (h : ∀ history, answer history = answer [])
    (ha : answer [] = .ok a) : (record c >>= fun history => Run.ofExcept (answer history)).Yields a := fun t =>
  ⟨_, gives_bind.mpr ⟨t.calls, { t with calls := t.calls ++ [c] }, rfl, by rw [h, ha]; rfl⟩⟩

theorem answer_errs {c : Call} {answer : List Call → Except Error α} (h : ∀ history, answer history = answer [])
    {e : Error} (he : answer [] = .error e) : (record c >>= fun history => Run.ofExcept (answer history)).Errs :=
  fun t => ⟨e, _, stops_bind.mpr (.inr ⟨t.calls, { t with calls := t.calls ++ [c] }, rfl, by rw [h, he]; rfl⟩)⟩

section
variable {b : Backend} {m : Model} {d : Domain} {options : SearchOptions} {name : Json} {op : Operator} {field : String}
  {ids found : List Int} {e : Error}

theorem search_yields (hb : b.Steady) (h : b.search [] m d options = .ok found) : (search b m d options).Yields found :=
  answer_yields (fun history => hb.search history [] m d options) h

theorem search_errs (hb : b.Steady) (h : b.search [] m d options = .error e) : (search b m d options).Errs :=
  answer_errs (fun history => hb.search history [] m d options) h

theorem nameSearch_yields (hb : b.Steady) (h : b.findByName [] m name op options = .ok found) :
    (nameSearch b m name op options).Yields found :=
  answer_yields (fun history => hb.names history [] m name op options) h

theorem nameSearch_errs (hb : b.Steady) (h : b.findByName [] m name op options = .error e) :
    (nameSearch b m name op options).Errs :=
  answer_errs (fun history => hb.names history [] m name op options) h

theorem references_yields (hb : b.Steady) (h : b.references [] m ids field = .ok found) :
    (references b m ids field).Yields found :=
  answer_yields (fun history => hb.references history [] m ids field) h

theorem references_errs (hb : b.Steady) (h : b.references [] m ids field = .error e) : (references b m ids field).Errs :=
  answer_errs (fun history => hb.references history [] m ids field) h

end

end Run

namespace Compile

/-- The value that an id is bound to. -/
def idParam (id : Int) : Param := if id < Json.signedLimit then .int id else .float (Float.ofInt id)

theorem idParam_ne_null (id : Int) : idParam id ≠ .null := by
  unfold idParam
  split <;> nofun

theorem idParam_of_fits {id : Int} (h : Text.Fits id) : idParam id = .int id :=
  if_pos (Int.lt_of_le_of_lt h.2 (by decide))

/-- A list of ids asks for just these. -/
theorem ofItems?_ids (isBoolean : Bool) (ids : List Int) :
    Wanted.ofItems? isBoolean (ids.map Json.int) = some { params := ids.map idParam } := by
  have hadd : ∀ w : Wanted, w.addItems? isBoolean (ids.map Json.int) =
      some { w with params := w.params ++ ids.map idParam } := by
    induction ids with
    | nil =>
      intro w
      simp [Wanted.addItems?]
    | cons id rest ih =>
      intro w
      have hitem : w.addItem? isBoolean (.int id) = some (w.add (idParam id)) := rfl
      rw [List.map_cons, Wanted.addItems?, hitem]
      refine (ih _).trans ?_
      rw [Wanted.add, List.append_assoc]
      rfl
  exact hadd {}

/-! ### What is asked of a record -/

/-- What a record has to have: a row of a table that refers to it; such a row with an id in a set; a row of a relation
    table that links it to an id in a set; an id in a list; or an attachment. -/
inductive Asked
  | referred (table column : String)
  | owning (table column : String) (lines : Values)
  | linked (relation : Relation) (others : Values)
  | given (ids : List Int)
  | attached (table model field : String)

/-- Whether the record with an id has what is asked for. -/
def Asked.Has {V : Type} (db : Database V) (id : Option V) : Asked → Prop
  | referred table column => ∃ r ∈ db.records table, db.base.equals id (r column) = true
  | owning table column lines => ∃ r ∈ db.records table, db.base.equals id (r column) = true ∧
      ∃ v ∈ lines.members db.engine, db.base.equals (r "id") v = true
  | linked relation others => ∃ r ∈ db.records relation.table, db.base.equals (r relation.column1) id = true ∧
      ∃ v ∈ others.members db.engine, db.base.equals (r relation.column2) v = true
  | given ids => ∃ n ∈ ids, db.base.equals id (db.base.bound (idParam n)) = true
  | attached table model field => ∃ r ∈ db.records table,
      db.base.equals (r "res_model") (db.base.bound (.text model)) = true ∧
      db.base.equals (r "res_field") (db.base.bound (.text field)) = true ∧ db.base.equals id (r "res_id") = true

/-- The condition is known of every record with an id under an alias, and true of those that have what is asked for, or
    else of those that lack it. -/
def Tells (tableAlias : String) (asked : Asked) (lacks : Bool) (c : Cond) : Prop :=
  ∀ ⦃V : Type⦄ (db : Database V) (row : Row V), row ⟨tableAlias, "id"⟩ ≠ none →
    c.truth db.engine row ≠ .unknown ∧
      ((c.truth db.engine row).holds = true ↔ (asked.Has db (row ⟨tableAlias, "id"⟩) ↔ lacks = false))

section
variable {tableAlias : String} {asked : Asked} {lacks : Bool} {c c' : Cond}

/-- A condition that is false where the other one is true, and the other way. -/
theorem Tells.of_not (h : Tells tableAlias asked false c)
    (hnot : ∀ {V : Type} (db : Database V) (row : Row V), row ⟨tableAlias, "id"⟩ ≠ none →
      c'.truth db.engine row = (c.truth db.engine row).not) : Tells tableAlias asked true c' := by
  intro V db row hrow
  obtain ⟨hknown, hholds⟩ := h db row hrow
  rw [hnot db row hrow]
  refine ⟨Truth.not_ne_unknown hknown, ?_⟩
  simp only [iff_true] at hholds
  rw [Truth.holds_not hknown, ← hholds]
  simp

/-- The conditions of what is had and of what is lacked are opposite. -/
theorem Tells.opposite (h : Tells tableAlias asked lacks c) (h' : Tells tableAlias asked (!lacks) c') {V : Type}
    (db : Database V) {row : Row V} (hrow : row ⟨tableAlias, "id"⟩ ≠ none) : Opposite db.engine row c c' := by
  obtain ⟨-, hholds⟩ := h db row hrow
  obtain ⟨-, hholds'⟩ := h' db row hrow
  have hnot : (!(c.truth db.engine row).holds) = true ↔
      ¬(asked.Has db (row ⟨tableAlias, "id"⟩) ↔ lacks = false) := by
    simp only [← hholds, Bool.not_eq_true', Bool.not_eq_true]
  rw [Opposite, Bool.eq_iff_iff, hholds', hnot]
  cases lacks <;> simp

theorem tells_literal (h : ∀ {V : Type} (db : Database V) (id : Option V), ¬asked.Has db id) (lacks : Bool) :
    Tells tableAlias asked lacks (.literal lacks) := by
  intro V db row _
  rw [Cond.truth, Truth.holds_ofBool]
  exact ⟨Truth.ofBool_ne_unknown lacks, by simp [h]⟩

/-- A record is linked or it is not. -/
theorem tells_linked (p : Place) (fieldName : String) (relation : Relation) (set : Values) (lacks : Bool) :
    Tells p.tableAlias (.linked relation set) lacks (.linked (!lacks) (linkedTo.link p fieldName relation) set) := by
  have hpositive : Tells p.tableAlias (.linked relation set) false (.linked true (linkedTo.link p fieldName relation) set) :=
    fun V db row _ => ⟨Truth.ofBool_ne_unknown _, db.holds_linked.trans (by simp [Asked.Has, linkedTo.link])⟩
  cases lacks with
  | false => exact hpositive
  | true => exact hpositive.of_not fun _ _ _ => rfl

end

/-! ### Leaves on the id -/

/-- The ids in a set are those of the records that have what is asked for, and none of them is null. -/
structure Collects (asked : Asked) (set : Values) : Prop where
  definite : ∀ {V : Type} (db : Database V), ∀ x ∈ set.members db.engine, x.isSome
  has : ∀ {V : Type} (db : Database V) (id : Option V),
    (∃ x ∈ set.members db.engine, db.base.equals id x = true) ↔ asked.Has db id

theorem collects_references (table column : String) :
    Collects (.referred table column) (.select (.references table column)) where
  definite db x hx := by
    obtain ⟨r, -, -, hsome⟩ := db.mem_references.mp hx
    exact hsome
  has db id := by
    constructor
    · rintro ⟨_, hx, heq⟩
      obtain ⟨r, hr, rfl, -⟩ := db.mem_references.mp hx
      exact ⟨r, hr, heq⟩
    · rintro ⟨r, hr, heq⟩
      exact ⟨_, db.mem_references.mpr ⟨r, hr, rfl, Engine.isSome_of_equals _ heq⟩, heq⟩

theorem collects_owners (table column : String) (lines : Values) :
    Collects (.owning table column lines) (.select (.owners table column lines)) where
  definite db x hx := by
    obtain ⟨r, -, -, -, hsome⟩ := db.mem_owners.mp hx
    exact hsome
  has db id := by
    constructor
    · rintro ⟨_, hx, heq⟩
      obtain ⟨r, hr, hmember, rfl, -⟩ := db.mem_owners.mp hx
      exact ⟨r, hr, heq, (db.engine.holds_member).mp hmember⟩
    · rintro ⟨r, hr, heq, hmember⟩
      exact ⟨_, db.mem_owners.mpr ⟨r, hr, db.engine.holds_member.mpr hmember, rfl, Engine.isSome_of_equals _ heq⟩, heq⟩

theorem collects_attached (table model field : String) :
    Collects (.attached table model field) (.select (.attached table model field)) where
  definite db x hx := by
    obtain ⟨r, -, -, -, -, hsome⟩ := db.mem_attached.mp hx
    exact hsome
  has db id := by
    constructor
    · rintro ⟨_, hx, heq⟩
      obtain ⟨r, hr, hmodel, hfield, rfl, -⟩ := db.mem_attached.mp hx
      exact ⟨r, hr, hmodel, hfield, heq⟩
    · rintro ⟨r, hr, hmodel, hfield, heq⟩
      exact ⟨_, db.mem_attached.mpr ⟨r, hr, hmodel, hfield, rfl, Engine.isSome_of_equals _ heq⟩, heq⟩

theorem collects_ids (ids : List Int) : Collects (.given ids) (.params (ids.map idParam)) where
  definite db x hx := by
    obtain ⟨param, hparam, rfl⟩ := List.mem_map.mp hx
    obtain ⟨n, -, rfl⟩ := List.mem_map.mp hparam
    rw [bound_of_ne_null (idParam_ne_null n)]
    rfl
  has db id := by
    constructor
    · rintro ⟨_, hx, heq⟩
      obtain ⟨_, hparam, rfl⟩ := List.mem_map.mp hx
      obtain ⟨n, hn, rfl⟩ := List.mem_map.mp hparam
      exact ⟨n, hn, heq⟩
    · rintro ⟨n, hn, heq⟩
      exact ⟨_, List.mem_map_of_mem (List.mem_map_of_mem hn), heq⟩

section
variable {tableAlias : String} {asked : Asked} {set : Values}

/-- An id is in the set or it is not. -/
theorem Collects.tells (h : Collects asked set) (lacks : Bool) :
    Tells tableAlias asked lacks (.group (.member (.column ⟨tableAlias, "id"⟩) (!lacks) set)) := by
  have hpositive : Tells tableAlias asked false (.group (.member (.column ⟨tableAlias, "id"⟩) true set)) := by
    intro V db row hrow
    obtain ⟨id, hid⟩ := Option.ne_none_iff_exists'.mp hrow
    have hknown := db.engine.member_some id fun x hx => Option.isSome_iff_ne_none.mp (h.definite db x hx)
    refine ⟨?_, db.holds_member.trans ((h.has db _).trans (by simp [hid, Expr.value]))⟩
    simpa only [Cond.truth, Expr.value, hid, if_true] using hknown
  cases lacks with
  | false => exact hpositive
  | true => exact hpositive.of_not fun _ _ _ => rfl

/-- The same of the negative condition that matches null too. -/
theorem Collects.tells_orNull (h : Collects asked set) : Tells tableAlias asked true
    (.or (.group (.member (.column ⟨tableAlias, "id"⟩) false set)) (.isNull ⟨tableAlias, "id"⟩)) := by
  refine Tells.of_not (h.tells false) fun db row hrow => ?_
  obtain ⟨id, hid⟩ := Option.ne_none_iff_exists'.mp hrow
  have hor : ∀ t : Truth, t.or (.ofBool (row ⟨tableAlias, "id"⟩).isNone) = t := fun t => by
    rw [hid]
    cases t <;> rfl
  exact hor _

end

/-- The operator for the ids in a set, or for those that are not. -/
def idOperator (lacks : Bool) : Operator := if lacks then .notIn else .within

/-- Operands that are compared with ids: the ids of a list, or a subquery. -/
inductive IdOperand (asked : Asked) : Operand → Prop
  | ids {ids : List Int} : asked = .given ids → IdOperand asked (.value (.ofIds ids))
  | subquery {sub : Select} : Collects asked (.select sub) → IdOperand asked (.subquery sub)

variable {s : Setting} {build : QueryBuilder} {p : Place}

/-- The condition that the id is, or is not, in a list of ids. -/
theorem plainCondition_ids {f : Field} (hf : p.model.field? "id" = some f) (ids : List Int) (positive : Bool)
    (ctx : Context) :
    plainCondition ⟨"id", if positive then .within else .notIn, .value (.ofIds ids)⟩ p ctx =
      .ok (Wanted.condition { params := ids.map idParam } (.column (p.column "id")) (p.column "id") positive) := by
  have hwanted := ofItems?_ids (f.type = .boolean) ids
  unfold plainCondition
  cases positive <;> simp [hf, literalLeaf, inValues, Json.ofIds, hwanted]

theorem plainCondition_id (hf : p.model.field? "id" = some { name := "id", type := .integer }) {asked : Asked}
    {right : Operand} (h : IdOperand asked right) (lacks : Bool) (ctx : Context) :
    ∃ c, plainCondition ⟨"id", idOperator lacks, right⟩ p ctx = .ok c ∧ Tells p.tableAlias asked lacks c := by
  cases h with
  | subquery hcollects =>
    refine ⟨_, ?_, hcollects.tells lacks⟩
    unfold plainCondition
    cases lacks <;> simp only [hf, idOperator] <;> rfl
  | @ids ids heq =>
    have hcondition : plainCondition ⟨"id", idOperator lacks, .value (.ofIds ids)⟩ p ctx =
        .ok (Wanted.condition { params := ids.map idParam } (.column (p.column "id")) (p.column "id") (!lacks)) := by
      have hids := plainCondition_ids hf ids (!lacks) ctx
      cases lacks <;> exact hids
    refine ⟨_, hcondition, ?_⟩
    subst heq
    cases ids with
    | nil =>
      cases lacks <;> exact tells_literal (fun db id => by simp [Asked.Has]) _
    | cons id rest =>
      cases lacks with
      | false => exact (collects_ids (id :: rest)).tells false
      | true => exact (collects_ids (id :: rest)).tells_orNull

/-! ### What a leaf asks for -/

/-- The values of the records that a leaf names. -/
def Related.values : Related → Values
  | .ids found => .ofIds found
  | .rows sub => .select sub

/-- The records that the right side of a leaf names: those of a subquery, those that the database finds for names, or
    those with ids in the leaf. -/
inductive NamesRelated (s : Setting) (l : Leaf) (comodel : Model) : Related → Prop
  | subquery {sub} : l.right = .subquery sub → NamesRelated s l comodel (.rows sub)
  | searched {v ids} : l.right = .value v → (names? v).isSome →
      s.backend.findByName [] comodel v l.op.positive { activeTest := s.context.activeTest } = .ok ids →
      NamesRelated s l comodel (.ids ids)
  | id {n id} : l.right = .value (.int n) → (Json.int n).int64? = some id → NamesRelated s l comodel (.ids [id])
  | ids {items ids} : l.right = .value (.arr items) → names? (.arr items) = none →
      integers? (setItems items) = some ids → NamesRelated s l comodel (.ids ids)

/-- The owners of any lines: what they refer to, or what the database answers where that has no column. -/
inductive OwnsAny (s : Setting) (inverse : Field) (comodel : Model) : Asked → Prop
  | stored : inverse.store = true → OwnsAny s inverse comodel (.referred comodel.table inverse.name)
  | answered {lines owners} : inverse.store = false →
      s.backend.search [] comodel (Domain.ofLeaf inverse.name .ne (.value (.bool false)))
        { activeTest := s.context.activeTest } = .ok lines →
      s.backend.references [] comodel lines inverse.name = .ok owners → OwnsAny s inverse comodel (.given owners)

/-- The owners of the lines that a leaf names. -/
inductive Owns (s : Setting) (inverse : Field) (comodel : Model) : Related → Asked → Prop
  | stored {related} : inverse.store = true →
      Owns s inverse comodel related (.owning comodel.table inverse.name related.values)
  | nothing : inverse.store = false → Owns s inverse comodel (.ids []) (.given [])
  | answered {ids owners} : inverse.store = false → ids ≠ [] →
      s.backend.references [] comodel ids inverse.name = .ok owners → Owns s inverse comodel (.ids ids) (.given owners)

/-- What a leaf on a model asks of its records, and whether it is about those that lack it. -/
inductive Requires (s : Setting) (m : Model) (l : Leaf) : Asked → Bool → Prop
  | anyLine {f comodel inverse asked} : m.field? l.left = some f → f.type = .one2many →
      s.registry.comodel f = .ok comodel → inverseField m f comodel = .ok inverse → l.right.isUnset = true →
      OwnsAny s inverse comodel asked →
      Requires s m l asked (!l.op.isNegative)
  | lines {f comodel inverse related asked} : m.field? l.left = some f → f.type = .one2many →
      s.registry.comodel f = .ok comodel → inverseField m f comodel = .ok inverse → l.right.isUnset = false →
      NamesRelated s l comodel related → Owns s inverse comodel related asked → Requires s m l asked l.op.isNegative
  | anyLink {f comodel relation} : m.field? l.left = some f → f.type = .many2many →
      s.registry.comodel f = .ok comodel → f.relation = some relation → l.right.isUnset = true →
      Requires s m l (.referred relation.table relation.column1) (!l.op.isNegative)
  | links {f comodel relation related} : m.field? l.left = some f → f.type = .many2many →
      s.registry.comodel f = .ok comodel → f.relation = some relation → l.right.isUnset = false →
      NamesRelated s l comodel related → Requires s m l (.linked relation related.values) l.op.isNegative
  | attachment {f} : m.field? l.left = some f → f.type = .binary →
      Requires s m l (.attached s.context.attachmentTable m.name f.name) (!l.op.isNegative)

/-- A leaf on a model's own field that asks which records are related, or whether there is an attachment. -/
inductive AsksForRecords (m : Model) (l : Leaf) : Prop
  | one2many {f : Field} : m.field? l.left = some f → f.store → f.type = .one2many → l.op.isPaired → AsksForRecords m l
  | many2many {f : Field} : m.field? l.left = some f → f.store → f.type = .many2many → l.op.isPaired → AsksForRecords m l
  | attachment {f : Field} : m.field? l.left = some f → f.store → f.type = .binary → f.attachment →
      l.op = .eq ∨ l.op = .ne → l.right.isTruthy = false → AsksForRecords m l

section
variable {l : Leaf} {op' : Operator} {m comodel : Model} {related : Related} {asked : Asked} {lacks : Bool}

theorem AsksForRecords.isPaired (h : AsksForRecords m l) : l.op.isPaired := by
  cases h with
  | one2many _ _ _ h => exact h
  | many2many _ _ _ h => exact h
  | attachment _ _ _ _ h _ => rcases h with h | h <;> rw [h] <;> rfl

theorem AsksForRecords.field (h : AsksForRecords m l) : ∃ f, m.field? l.left = some f := by
  cases h with
  | one2many h _ _ _ => exact ⟨_, h⟩
  | many2many h _ _ _ => exact ⟨_, h⟩
  | attachment h _ _ _ _ _ => exact ⟨_, h⟩

/-! ### Negating a leaf -/

theorem AsksForRecords.negate (h : AsksForRecords m l) (hop : l.op.negate? = some op') :
    AsksForRecords m { l with op := op' } := by
  have hpaired : op'.isPaired := Operator.isPaired_negate h.isPaired hop
  cases h with
  | one2many hf hstore htype _ => exact .one2many hf hstore htype hpaired
  | many2many hf hstore htype _ => exact .many2many hf hstore htype hpaired
  | attachment hf hstore htype hattachment heq hright =>
    refine .attachment hf hstore htype hattachment ?_ hright
    rcases heq with heq | heq <;> rw [heq] at hop <;> cases hop
    · exact .inr rfl
    · exact .inl rfl

/-- Which records a leaf names does not depend on whether it is the positive or the negative one. -/
theorem NamesRelated.negate (h : NamesRelated s l comodel related) (hl : l.op.isPaired) (hop : l.op.negate? = some op') :
    NamesRelated s { l with op := op' } comodel related := by
  cases h with
  | subquery hright => exact .subquery hright
  | searched hright hnames hfound =>
    refine .searched hright hnames ?_
    rw [Operator.positive_negate hl hop]
    exact hfound
  | id hright hn => exact .id hright hn
  | ids hright hnames hids => exact .ids hright hnames hids

/-- The negation asks the same of the other records. -/
theorem Requires.negate (h : Requires s m l asked lacks) (hl : l.op.isPaired) (hop : l.op.negate? = some op') :
    Requires s m { l with op := op' } asked (!lacks) := by
  have hnegative : (!l.op.isNegative) = op'.isNegative := (Operator.isNegative_negate hl hop).symm
  cases h with
  | anyLine hf htype hcomodel hinverse hunset howns =>
    rw [hnegative]
    exact .anyLine hf htype hcomodel hinverse hunset howns
  | lines hf htype hcomodel hinverse hset hnames howns =>
    rw [hnegative]
    exact .lines hf htype hcomodel hinverse hset (hnames.negate hl hop) howns
  | anyLink hf htype hcomodel hrelation hunset =>
    rw [hnegative]
    exact .anyLink hf htype hcomodel hrelation hunset
  | links hf htype hcomodel hrelation hset hnames =>
    rw [hnegative]
    exact .links hf htype hcomodel hrelation hset (hnames.negate hl hop)
  | attachment hf htype =>
    rw [hnegative]
    exact .attachment hf htype

end

/-! ### What a leaf becomes -/

/-- A step that says of the records of a place whether they have what is asked for: by its condition, or by the leaf on
    the id that comes next. -/
inductive StepTells (p : Place) (asked : Asked) (lacks : Bool) : Step → Prop
  | emit {c : Cond} : Tells p.tableAlias asked lacks c → StepTells p asked lacks (.emit c)
  | id {right : Operand} : IdOperand asked right → StepTells p asked lacks (.leaf ⟨"id", idOperator lacks, right⟩ p)

section
variable {l : Leaf} {comodel : Model} {inverse f : Field} {related : Related} {asked : Asked} {lacks : Bool}

theorem direction_of_not_isHierarchy {op : Operator} (h : op.isHierarchy = false) : Direction.ofOperator? op = none := by
  cases op <;> first | rfl | cases h

theorem direction_of_isPaired {op : Operator} (h : op.isPaired) : Direction.ofOperator? op = none :=
  direction_of_not_isHierarchy (Operator.isHierarchy_of_isPaired h)

theorem NamesRelated.yields (h : NamesRelated s l comodel related) (hb : s.backend.Steady) :
    (relatedOf s l comodel).Yields related := by
  obtain ⟨left, op, right⟩ := l
  cases h with
  | subquery hright =>
    cases hright
    exact .pure _
  | @searched v ids hright hnames hfound =>
    cases hright
    obtain ⟨names, hnames⟩ := Option.isSome_iff_exists.mp hnames
    unfold relatedOf
    dsimp only
    rw [hnames]
    exact .bind (Run.nameSearch_yields hb hfound) (.pure _)
  | id hright hn =>
    cases hright
    unfold relatedOf
    dsimp only [names?]
    rw [hn]
    exact .pure _
  | ids hright hnames hids =>
    cases hright
    unfold relatedOf
    dsimp only
    rw [hnames]
    dsimp only
    rw [hids]
    exact .pure _

/-- A right side that names no records fails. -/
theorem namesRelated_or_errs (hb : s.backend.Steady) (l : Leaf) (comodel : Model) :
    (∃ related, NamesRelated s l comodel related) ∨ (relatedOf s l comodel).Errs := by
  obtain ⟨left, op, right⟩ := l
  cases right with
  | subquery sub => exact .inl ⟨_, .subquery rfl⟩
  | value v =>
    unfold relatedOf
    dsimp only
    cases hnames : names? v with
    | some names =>
      cases hfound : s.backend.findByName [] comodel v op.positive { activeTest := s.context.activeTest } with
      | ok ids => exact .inl ⟨_, .searched rfl (Option.isSome_of_eq_some hnames) hfound⟩
      | error e => exact .inr (Run.Errs.bind (Run.nameSearch_errs hb hfound))
    | none =>
      cases v with
      | int n =>
        cases hn : (Json.int n).int64? with
        | some id => exact .inl ⟨_, .id rfl hn⟩
        | none =>
          dsimp only
          rw [hn]
          exact .inr (.fail _)
      | arr items =>
        cases hids : integers? (setItems items) with
        | some ids => exact .inl ⟨_, .ids rfl hnames hids⟩
        | none =>
          dsimp only
          rw [hids]
          exact .inr (.fail _)
      | null => exact .inr (.fail _)
      | bool b => exact .inr (.fail _)
      | float x => exact .inr (.fail _)
      | str text => exact .inr (.fail _)
      | obj members => exact .inr (.fail _)

theorem OwnsAny.yields (h : OwnsAny s inverse comodel asked) (hb : s.backend.Steady) :
    ∃ right, (allOwners s inverse comodel).Yields right ∧ IdOperand asked right := by
  unfold allOwners
  cases h with
  | stored hstore =>
    rw [if_pos hstore]
    exact ⟨_, .pure _, .subquery (collects_references _ _)⟩
  | answered hstore hlines howners =>
    rw [if_neg (by simp [hstore])]
    exact ⟨_, .bind (Run.search_yields hb hlines)
      (.bind (Run.references_yields hb howners) (.pure _)), .ids rfl⟩

theorem ownsAny_or_errs (hb : s.backend.Steady) (inverse : Field) (comodel : Model) :
    (∃ asked, OwnsAny s inverse comodel asked) ∨ (allOwners s inverse comodel).Errs := by
  cases hstore : inverse.store with
  | true => exact .inl ⟨_, .stored hstore⟩
  | false =>
    unfold allOwners
    rw [if_neg (by simp [hstore])]
    cases hlines : s.backend.search [] comodel (Domain.ofLeaf inverse.name .ne (.value (.bool false)))
        { activeTest := s.context.activeTest } with
    | error e => exact .inr (Run.Errs.bind (Run.search_errs hb hlines))
    | ok lines =>
      cases howners : s.backend.references [] comodel lines inverse.name with
      | ok owners => exact .inl ⟨_, .answered hstore hlines howners⟩
      | error e =>
        exact .inr (Run.Yields.errs (Run.search_yields hb hlines)
          (Run.Errs.bind (Run.references_errs hb howners)))

theorem not_has_given_nil {V : Type} (db : Database V) (id : Option V) : ¬(Asked.given []).Has db id := by
  rintro ⟨n, hn, -⟩
  cases hn

theorem not_has_owning_nil {table column : String} {V : Type} (db : Database V) (id : Option V) :
    ¬(Asked.owning table column (.ofIds [])).Has db id := by
  rintro ⟨r, -, -, v, hv, -⟩
  cases hv

theorem not_has_linked_nil {relation : Relation} {V : Type} (db : Database V) (id : Option V) :
    ¬(Asked.linked relation (.ofIds [])).Has db id := by
  rintro ⟨r, -, -, v, hv, -⟩
  cases hv

/-- Lines are asked for by the ids of their owners, or there are none. -/
theorem one2many_yields (hl : l.op.isPaired) (hb : s.backend.Steady)
    (hinverse : inverseField p.model f comodel = .ok inverse) (hset : l.right.isUnset = false)
    (hnames : NamesRelated s l comodel related) (howns : Owns s inverse comodel related asked) :
    ∃ step, (reduceOne2many s build l p f comodel).Yields step ∧ StepTells p asked l.op.isNegative step := by
  unfold reduceOne2many
  refine Run.Yields.andThen (.ofExcept hinverse) ?_
  dsimp only
  rw [direction_of_isPaired hl]
  dsimp only
  rw [if_neg (by simp [hset])]
  refine (hnames.yields hb).andThen ?_
  cases howns with
  | stored hstore =>
    cases related with
    | rows sub =>
      simp only [hstore]
      exact ⟨_, .pure _, .id (.subquery (collects_owners _ _ _))⟩
    | ids ids =>
      cases ids with
      | nil => exact ⟨_, .pure _, .emit (tells_literal not_has_owning_nil _)⟩
      | cons id rest =>
        simp only [hstore]
        exact ⟨_, .pure _, .id (.subquery (collects_owners _ _ _))⟩
  | nothing => exact ⟨_, .pure _, .emit (tells_literal not_has_given_nil _)⟩
  | @answered ids owners hstore hne howners =>
    cases ids with
    | nil => exact absurd rfl hne
    | cons id rest =>
      simp only [hstore]
      exact ⟨_, .bind (Run.references_yields hb howners) (.pure _), .id (.ids rfl)⟩

/-- Where records are asked for that have any line, or none, the owners of all lines are compared with the id. -/
theorem one2many_yields_any (hl : l.op.isPaired) (hb : s.backend.Steady)
    (hinverse : inverseField p.model f comodel = .ok inverse) (hunset : l.right.isUnset = true)
    (howns : OwnsAny s inverse comodel asked) :
    ∃ step, (reduceOne2many s build l p f comodel).Yields step ∧ StepTells p asked (!l.op.isNegative) step := by
  obtain ⟨right, hright, hoperand⟩ := howns.yields hb
  unfold reduceOne2many
  refine Run.Yields.andThen (.ofExcept hinverse) ?_
  dsimp only
  rw [direction_of_isPaired hl]
  dsimp only
  rw [if_pos hunset]
  refine hright.andThen ⟨_, .pure _, ?_⟩
  cases l.op.isNegative <;> exact .id hoperand

theorem one2many_requires_or_errs (hl : l.op.isPaired) (hb : s.backend.Steady) (hf : p.model.field? l.left = some f)
    (htype : f.type = .one2many) (hcomodel : s.registry.comodel f = .ok comodel) :
    (∃ asked lacks, Requires s p.model l asked lacks) ∨ (reduceOne2many s build l p f comodel).Errs := by
  unfold reduceOne2many
  cases hinverse : inverseField p.model f comodel with
  | error e => exact .inr (Run.Errs.bind (.ofExcept rfl))
  | ok inverse =>
    refine .imp_right (Run.Yields.errs (.ofExcept rfl)) ?_
    dsimp only
    rw [direction_of_isPaired hl]
    dsimp only
    cases hunset : l.right.isUnset with
    | true =>
      rcases ownsAny_or_errs hb inverse comodel with ⟨asked, howns⟩ | herrs
      · exact .inl ⟨_, _, .anyLine hf htype hcomodel hinverse hunset howns⟩
      · exact .inr (Run.Errs.bind herrs)
    | false =>
      rcases namesRelated_or_errs hb l comodel with ⟨related, hnames⟩ | herrs
      · have hrequires : ∀ {asked}, Owns s inverse comodel related asked →
            ∃ asked lacks, Requires s p.model l asked lacks := fun howns =>
          ⟨_, _, .lines hf htype hcomodel hinverse hunset hnames howns⟩
        cases hstore : inverse.store with
        | true => exact .inl (hrequires (.stored hstore))
        | false =>
          cases related with
          | rows sub => exact .inr ((hnames.yields hb).errs (.fail _))
          | ids ids =>
            by_cases hnone : ids = []
            · subst hnone
              exact .inl (hrequires (.nothing hstore))
            cases howners : s.backend.references [] comodel ids inverse.name with
            | ok owners => exact .inl (hrequires (.answered hstore hnone howners))
            | error e =>
              obtain ⟨id, rest, rfl⟩ := List.exists_cons_of_ne_nil hnone
              exact .inr ((hnames.yields hb).errs
                (Run.Errs.bind (Run.references_errs hb howners)))
      · exact .inr (Run.Errs.bind herrs)

theorem linkedTo_tells (fieldName : String) (relation : Relation) (related : Related) (lacks : Bool) :
    Tells p.tableAlias (.linked relation related.values) lacks (linkedTo p fieldName relation (!lacks) related) := by
  cases related with
  | rows sub => exact tells_linked p fieldName relation _ lacks
  | ids ids =>
    cases ids with
    | nil =>
      rw [linkedTo, Bool.not_not]
      exact tells_literal not_has_linked_nil lacks
    | cons id rest => exact tells_linked p fieldName relation _ lacks

theorem many2many_yields (hl : l.op.isPaired) (hb : s.backend.Steady) {relation : Relation}
    (hrelation : f.relation = some relation) (hset : l.right.isUnset = false) (hnames : NamesRelated s l comodel related) :
    ∃ step, (reduceMany2many s build l p f comodel).Yields step ∧
      StepTells p (.linked relation related.values) l.op.isNegative step := by
  unfold reduceMany2many
  rw [hrelation]
  dsimp only
  rw [direction_of_isPaired hl]
  dsimp only
  rw [if_neg (by simp [hset])]
  exact (hnames.yields hb).andThen ⟨_, .pure _, .emit (linkedTo_tells _ _ _ _)⟩

theorem many2many_yields_any (hl : l.op.isPaired) {relation : Relation} (hrelation : f.relation = some relation)
    (hunset : l.right.isUnset = true) :
    ∃ step, (reduceMany2many s build l p f comodel).Yields step ∧
      StepTells p (.referred relation.table relation.column1) (!l.op.isNegative) step := by
  unfold reduceMany2many
  rw [hrelation]
  dsimp only
  rw [direction_of_isPaired hl]
  dsimp only
  rw [if_pos hunset]
  refine ⟨_, .pure _, ?_⟩
  cases l.op.isNegative <;> exact .id (.subquery (collects_references _ _))

theorem many2many_requires_or_errs (hl : l.op.isPaired) (hb : s.backend.Steady) (hf : p.model.field? l.left = some f)
    (htype : f.type = .many2many) (hcomodel : s.registry.comodel f = .ok comodel) :
    (∃ asked lacks, Requires s p.model l asked lacks) ∨ (reduceMany2many s build l p f comodel).Errs := by
  unfold reduceMany2many
  cases hrelation : f.relation with
  | none => exact .inr (.fail _)
  | some relation =>
    dsimp only
    rw [direction_of_isPaired hl]
    dsimp only
    cases hunset : l.right.isUnset with
    | true => exact .inl ⟨_, _, .anyLink hf htype hcomodel hrelation hunset⟩
    | false =>
      rcases namesRelated_or_errs hb l comodel with ⟨related, hnames⟩ | herrs
      · exact .inl ⟨_, _, .links hf htype hcomodel hrelation hunset hnames⟩
      · exact .inr (Run.Errs.bind herrs)

theorem attachment_yields (hl : l.op = .eq ∨ l.op = .ne) (hright : l.right.isTruthy = false) (f : Field) :
    ∃ step, (reduceAttachment s l p f).Yields step ∧
      StepTells p (.attached s.context.attachmentTable p.model.name f.name) (!l.op.isNegative) step := by
  have hoperand := IdOperand.subquery (collects_attached s.context.attachmentTable p.model.name f.name)
  obtain ⟨left, op, right⟩ := l
  dsimp only at hl hright ⊢
  unfold reduceAttachment
  dsimp only
  rw [hright]
  rcases hl with rfl | rfl
  · exact ⟨_, .pure _, .id hoperand⟩
  · exact ⟨_, .pure _, .id hoperand⟩

/-- A leaf that asks for records is reduced as the kind of its field says. -/
theorem AsksForRecords.reduce_eq (hl : AsksForRecords p.model l) (build : QueryBuilder) (hr : s.registry.Valid)
    (hm : s.registry.Has p.model) (hf : p.model.field? l.left = some f) :
    reduce s build l p = Run.ofExcept (classifyField s.registry f) >>= reduceKind s build l p := by
  unfold reduce
  rw [if_neg (Operator.ne_eqIfSet_of_isPaired hl.isPaired),
    classify_own hr hm hf (Operator.isHierarchy_of_isPaired hl.isPaired)]

/-- The field of a leaf that asks for records has a column, and an attachment is asked about by a leaf without a value. -/
theorem AsksForRecords.of_field (hl : AsksForRecords p.model l) (hf : p.model.field? l.left = some f) :
    f.store ∧ (f.type = .one2many ∨ f.type = .many2many ∨
      (f.type = .binary ∧ f.attachment ∧ (l.op = .eq ∨ l.op = .ne) ∧ l.right.isTruthy = false)) := by
  cases hl with
  | one2many hf' hstore htype _ =>
    cases hf.symm.trans hf'
    exact ⟨hstore, .inl htype⟩
  | many2many hf' hstore htype _ =>
    cases hf.symm.trans hf'
    exact ⟨hstore, .inr (.inl htype)⟩
  | attachment hf' hstore htype hattachment heq hright =>
    cases hf.symm.trans hf'
    exact ⟨hstore, .inr (.inr ⟨htype, hattachment, heq, hright⟩)⟩

theorem classifyField_one2many {r : Registry} (hstore : f.store) (htype : f.type = .one2many) :
    classifyField r f = (r.comodel f).map (.one2many f) := by
  simp [classifyField, hstore, htype]

theorem classifyField_many2many {r : Registry} (hstore : f.store) (htype : f.type = .many2many) :
    classifyField r f = (r.comodel f).map (.many2many f) := by
  simp [classifyField, hstore, htype]

/-- A leaf that asks something of the records becomes a step that says it of them. -/
theorem Requires.yields (h : Requires s p.model l asked lacks) (hl : AsksForRecords p.model l) (build : QueryBuilder)
    (hr : s.registry.Valid) (hb : s.backend.Steady) (hm : s.registry.Has p.model) :
    ∃ step, (reduce s build l p).Yields step ∧ StepTells p asked lacks step := by
  have hpaired := hl.isPaired
  obtain ⟨f, hf⟩ := hl.field
  obtain ⟨hstore, hkinds⟩ := hl.of_field hf
  rw [hl.reduce_eq build hr hm hf]
  -- The field of the leaf is the one that the relation reads.
  cases h with
  | anyLine hf' htype hcomodel hinverse hunset howns =>
    cases hf.symm.trans hf'
    rw [classifyField_one2many hstore htype, hcomodel]
    exact Run.Yields.andThen (.ofExcept rfl) (one2many_yields_any hpaired hb hinverse hunset howns)
  | lines hf' htype hcomodel hinverse hset hnames howns =>
    cases hf.symm.trans hf'
    rw [classifyField_one2many hstore htype, hcomodel]
    exact Run.Yields.andThen (.ofExcept rfl) (one2many_yields hpaired hb hinverse hset hnames howns)
  | anyLink hf' htype hcomodel hrelation hunset =>
    cases hf.symm.trans hf'
    rw [classifyField_many2many hstore htype, hcomodel]
    exact Run.Yields.andThen (.ofExcept rfl) (many2many_yields_any hpaired hrelation hunset)
  | links hf' htype hcomodel hrelation hset hnames =>
    cases hf.symm.trans hf'
    rw [classifyField_many2many hstore htype, hcomodel]
    exact Run.Yields.andThen (.ofExcept rfl) (many2many_yields hpaired hb hrelation hset hnames)
  | attachment hf' htype =>
    cases hf.symm.trans hf'
    rcases hkinds with hlines | hlinks | ⟨-, hattachment, heq, hright⟩
    · cases htype.symm.trans hlines
    · cases htype.symm.trans hlinks
    · have hkind : classifyField s.registry f = .ok (.attachment f) := by
        simp [classifyField, hstore, htype, hattachment]
      exact Run.Yields.andThen (.ofExcept hkind) (attachment_yields heq hright f)

/-- A leaf that asks nothing of the records fails. -/
theorem AsksForRecords.requires_or_errs (hl : AsksForRecords p.model l) (build : QueryBuilder) (hr : s.registry.Valid)
    (hb : s.backend.Steady) (hm : s.registry.Has p.model) :
    (∃ asked lacks, Requires s p.model l asked lacks) ∨ (reduce s build l p).Errs := by
  obtain ⟨f, hf⟩ := hl.field
  obtain ⟨hstore, htype | htype | ⟨htype, -⟩⟩ := hl.of_field hf
  · rw [hl.reduce_eq build hr hm hf, classifyField_one2many hstore htype]
    cases hcomodel : s.registry.comodel f with
    | error e => exact .inr (Run.Errs.bind (.ofExcept rfl))
    | ok comodel =>
      exact (one2many_requires_or_errs hl.isPaired hb hf htype hcomodel).imp_right (Run.Yields.errs (.ofExcept rfl))
  · rw [hl.reduce_eq build hr hm hf, classifyField_many2many hstore htype]
    cases hcomodel : s.registry.comodel f with
    | error e => exact .inr (Run.Errs.bind (.ofExcept rfl))
    | ok comodel =>
      exact (many2many_requires_or_errs hl.isPaired hb hf htype hcomodel).imp_right (Run.Yields.errs (.ofExcept rfl))
  · exact .inl ⟨_, _, .attachment hf htype⟩

end

/-! ### Compiling a leaf and its negation -/

section
variable {l : Leaf} {op' : Operator} {p' : Place} {joins : List Join} {asked : Asked} {lacks : Bool}

/-- A leaf that asks something of the records settles with a condition that says it of them. -/
theorem Requires.settles (h : Requires s p.model l asked lacks) (hl : AsksForRecords p.model l) (build : QueryBuilder)
    (hr : s.registry.Valid) (hid : s.registry.KeepsIds) (hb : s.backend.Steady) (hm : s.registry.Has p.model) :
    ∃ c, (∃ n ≤ 2, Settles s build n l p c) ∧ Tells p.tableAlias asked lacks c := by
  obtain ⟨step, hyields, htells⟩ := h.yields hl build hr hb hm
  cases htells with
  | emit hc => exact ⟨_, ⟨1, by omega, settles_emit hyields⟩, hc⟩
  | @id right hoperand =>
    have hpaired : (idOperator lacks).isPaired := by cases lacks <;> rfl
    obtain ⟨c, hc, htells⟩ := plainCondition_id (hid _ hm) hoperand lacks s.context
    have hsettles : Settles s build 1 ⟨"id", idOperator lacks, right⟩ p c :=
      settles_emit (reduce_of_classify (Operator.ne_eqIfSet_of_isPaired hpaired)
        (classify_own (l := ⟨"id", idOperator lacks, right⟩) hr hm (hid _ hm) (Operator.isHierarchy_of_isPaired hpaired))
        (emitLeaf_yields hc))
    exact ⟨c, ⟨2, Nat.le_refl 2, hsettles.replaced hyields⟩, htells⟩

/-- A leaf that fails where its field is fails to compile. -/
theorem compileFrom_errs (h : (reduce s build l p').Errs) (hp : Delegates s.registry l.path.1 p joins p')
    (hop : l.op ≠ .eqIfSet) {fuel : Nat} (hfuel : joins.length + 1 ≤ fuel) {model : String}
    (hm : s.registry.model model = .ok p.model) {q : Query} (hq : q.tableAlias = p.tableAlias) (tr : Trace) :
    ∃ e q' tr', (Compiler.compileWith s build fuel model [.leaf l] q).run tr = ((.error (.error e), q'), tr') := by
  obtain ⟨left, rfl⟩ := Nat.exists_eq_add_of_le' hfuel
  obtain ⟨tr₁, hrun⟩ := hp.moves build hop [] [] q (left + 1) tr
  obtain ⟨e, tr₂, hstops⟩ := h tr₁
  have hon : (Compiler.compileOn s build (left + (joins.length + 1)) p [.leaf l] q).run tr =
      ((.error (.error e), joins.foldl .addJoin q), tr₂) := by
    rw [Nat.add_comm joins.length 1, ← Nat.add_assoc]
    refine hrun.trans ?_
    rw [Machine.outcome_leaf, show (reduce s build l p').run tr₁ = _ from hstops]
  have hwith := compileWith_run s build hm (left + (joins.length + 1)) [.leaf l] q tr
  rw [hq, hon] at hwith
  exact ⟨e, _, _, hwith⟩

end

/-- Over an accepted registry whose models keep their ids, with a database whose answers do not depend on what it was
    asked before: a leaf that asks for the records of a relation or for an attachment, on a field of the model or of one
    that it delegates to, and the leaf with the negated operator both fail to compile, namely where the right side names no
    records or the database has no answer; or compile with the same joins to conditions that are known of every record
    with an id, just one of them being true, and which one says whether the record has what the leaf asks for. -/
theorem compile_parts (c : Compiler) (hr : c.registry.Valid) (hid : c.registry.KeepsIds) (hb : c.backend.Steady)
    {model : String} {m : Model} (hm : c.registry.model model = .ok m) {l : Leaf} {q : Query} {joins : List Join} {p : Place}
    (hp : Delegates c.registry l.left ⟨m, q.tableAlias⟩ joins p) (hl : AsksForRecords p.model l) {op' : Operator}
    (hop : l.op.negate? = some op') {fuel : Nat} (hfuel : joins.length + 2 ≤ fuel) :
    ((∀ asked lacks, ¬Requires (c.setting c.context) p.model l asked lacks) ∧ ∀ tr,
      (∃ e q' tr', (c.compile fuel model [.leaf l] q).run tr = ((.error (.error e), q'), tr')) ∧
        ∃ e q' tr', (c.compile fuel model [.leaf { l with op := op' }] q).run tr = ((.error (.error e), q'), tr')) ∨
    ∃ asked lacks cond cond', Requires (c.setting c.context) p.model l asked lacks ∧
      (∀ tr, (∃ tr', (c.compile fuel model [.leaf l] q).run tr =
          ((.ok (), (joins.foldl .addJoin q).addCondition cond), tr')) ∧
        ∃ tr', (c.compile fuel model [.leaf { l with op := op' }] q).run tr =
          ((.ok (), (joins.foldl .addJoin q).addCondition cond'), tr')) ∧
      ∀ {V : Type} (db : Database V) (row : Row V), row ⟨p.tableAlias, "id"⟩ ≠ none →
        cond.truth db.engine row ≠ .unknown ∧ cond'.truth db.engine row ≠ .unknown ∧
          (cond'.truth db.engine row).holds = !(cond.truth db.engine row).holds ∧
          ((cond.truth db.engine row).holds = true ↔ (asked.Has db (row ⟨p.tableAlias, "id"⟩) ↔ lacks = false)) := by
  have hhas : c.registry.Has p.model := hp.has (s := c.setting c.context) (Registry.has_of_model hm)
  have hpaired := hl.isPaired
  have hset : l.op ≠ .eqIfSet := Operator.ne_eqIfSet_of_isPaired hpaired
  have hset' : op' ≠ .eqIfSet := Operator.ne_eqIfSet_of_isPaired (Operator.isPaired_negate hpaired hop)
  have hpath : l.path.1 = l.left := by
    obtain ⟨f, hf⟩ := hl.field
    have hdotless : '.' ∉ l.left.toList := Text.not_mem_of_isIdentifier (hr.isIdentifier_field hhas hf) (by decide)
    rw [show l.path = (l.left, none) from Leaf.path_of_dotless hdotless]
  have hfrom : Delegates c.registry l.path.1 ⟨m, q.tableAlias⟩ joins p := hpath ▸ hp
  have hfrom' : Delegates c.registry (Leaf.path { l with op := op' }).1 ⟨m, q.tableAlias⟩ joins p := hfrom
  have hl' : AsksForRecords p.model { l with op := op' } := hl.negate hop
  have hback : op'.negate? = some l.op := Operator.negate?_negate hpaired hop
  let s := c.setting c.context
  rcases hl.requires_or_errs (s := s) (c.queryIn fuel) hr hb hhas with ⟨asked, lacks, hrequires⟩ | herrs
  · right
    obtain ⟨cond, ⟨n, hn, hsettles⟩, htells⟩ := hrequires.settles hl (c.queryIn fuel) hr hid hb hhas
    obtain ⟨cond', ⟨n', hn', hsettles'⟩, htells'⟩ :=
      (hrequires.negate hpaired hop).settles hl' (c.queryIn fuel) hr hid hb hhas
    refine ⟨asked, lacks, cond, cond', hrequires, fun tr => ⟨?_, ?_⟩, fun db row hrow => ?_⟩
    · exact hsettles.compileFrom hfrom hset (by omega) hm rfl tr
    · exact hsettles'.compileFrom hfrom' hset' (by omega) hm rfl tr
    · obtain ⟨hknown, hholds⟩ := htells db row hrow
      exact ⟨hknown, (htells' db row hrow).1, htells.opposite htells' db hrow, hholds⟩
  · left
    have hnone : ∀ asked lacks, ¬Requires s p.model l asked lacks := fun asked lacks hrequires => by
      obtain ⟨step, hyields, -⟩ := hrequires.yields hl (c.queryIn fuel) hr hb hhas
      exact herrs.not_yields hyields
    have herrs' : (reduce s (c.queryIn fuel) { l with op := op' } p).Errs := by
      rcases hl'.requires_or_errs (s := s) (c.queryIn fuel) hr hb hhas with ⟨asked, lacks, hrequires⟩ | herrs'
      · exact absurd (hrequires.negate hl'.isPaired hback) (hnone _ _)
      · exact herrs'
    exact ⟨hnone, fun tr => ⟨compileFrom_errs herrs hfrom hset (by omega) hm rfl tr,
      compileFrom_errs herrs' hfrom' hset' (by omega) hm rfl tr⟩⟩

/-! ### Projects that are tasks -/

/-- A project delegates to a task. -/
def projectModel : Model :=
  ((Model.ofTable "project" "project").withField (Field.many2one "task" "task")).inheriting "task" "task"

/-- A compiler for projects, tasks, notes and tags. The tags that any name leads to are 4 and 7, and nothing refers to
    anything else. -/
def projectCompiler : Compiler where
  registry := { models := noteCompiler.registry.models.insert "project" projectModel }
  backend := { search := fun _ _ _ _ => .ok [4, 7], references := fun _ _ _ _ => .ok [], parentPaths := fun _ _ _ => .ok [] }
  context := noteCompiler.context

theorem valid_projects : projectCompiler.registry.Valid where
  built := .register (m := projectModel) valid_notes.built rfl
  validated := rfl

theorem keepsIds_projects : projectCompiler.registry.KeepsIds := by
  rintro m ⟨name, hname⟩
  have hmem : (name, m) ∈ [("note", noteModel), ("project", projectModel), ("tag", tagModel), ("task", taggedTask)] :=
    Registry.mem_of_lookup hname
  simp only [List.mem_cons, List.not_mem_nil, or_false, Prod.mk.injEq] at hmem
  rcases hmem with ⟨-, rfl⟩ | ⟨-, rfl⟩ | ⟨-, rfl⟩ | ⟨-, rfl⟩ <;> rfl

/-- What a leaf asks for that looks for the tags 4 and 7 by a name. -/
theorem requires_tags {asked : Asked} {lacks : Bool}
    (h : Requires (projectCompiler.setting projectCompiler.context) taggedTask
      ⟨"tags", .notIlike, .value (.str "urgent")⟩ asked lacks) :
    asked = .linked ⟨"task_tag", "task_id", "tag_id"⟩ (.ofIds [4, 7]) ∧ lacks = true := by
  have htags : taggedTask.field? "tags" = some (Field.many2many "tags" "tag" ⟨"task_tag", "task_id", "tag_id"⟩) := rfl
  cases h with
  | anyLine hf htype =>
    cases htags.symm.trans hf
    cases htype
  | lines hf htype =>
    cases htags.symm.trans hf
    cases htype
  | anyLink _ _ _ _ hunset => cases hunset
  | links hf _ hcomodel hrelation _ hnames =>
    cases htags.symm.trans hf
    cases hrelation
    cases hnames with
    | subquery hright => cases hright
    | searched hright _ hfound =>
      cases hright
      cases hfound
      exact ⟨rfl, rfl⟩
    | id hright => cases hright
    | ids hright => cases hright
  | attachment hf htype =>
    cases htags.symm.trans hf
    cases htype

/-- Of two tasks the first one has the tag 4. -/
def tagDatabase : Database Datum where
  base := Datum.engine
  records table := if table = "task_tag" then
    [Record.ofList [("task_id", .number 1), ("tag_id", .number 4)],
      Record.ofList [("task_id", .number 2), ("tag_id", .number 5)]] else []

/-- Projects with a tag that is called urgent, told by the links of their tasks to the tags 4 and 7, and projects without
    such a tag. The first task has one. -/
theorem compile_parts_tags :
    let l : Leaf := ⟨"tags", .notIlike, .value (.str "urgent")⟩
    let c := projectCompiler
    let q := Query.ofTable "project"
    let joins := [Query.joinThrough "project" "task" "task" "id" "task"]
    let task := fun n : Int => (Record.ofList [("id", .number n)]).under "project__task"
    c.registry.Valid ∧ c.registry.KeepsIds ∧ c.backend.Steady ∧ c.registry.model "project" = .ok projectModel ∧
      Delegates c.registry "tags" ⟨projectModel, "project"⟩ joins ⟨taggedTask, "project__task"⟩ ∧
      AsksForRecords taggedTask l ∧ l.op.negate? = some .ilike ∧ joins.length + 2 ≤ 3 ∧
      ∃ cond cond', (∀ tr,
          (∃ tr', (c.compile 3 "project" [.leaf l] q).run tr = ((.ok (), (joins.foldl .addJoin q).addCondition cond), tr')) ∧
          ∃ tr', (c.compile 3 "project" [.leaf { l with op := .ilike }] q).run tr =
            ((.ok (), (joins.foldl .addJoin q).addCondition cond'), tr')) ∧
        (∀ {V : Type} (db : Database V) (row : Row V), row ⟨"project__task", "id"⟩ ≠ none →
          cond.truth db.engine row ≠ .unknown ∧ cond'.truth db.engine row ≠ .unknown ∧
            (cond'.truth db.engine row).holds = !(cond.truth db.engine row).holds ∧
            ((cond.truth db.engine row).holds = true ↔ ¬∃ link ∈ db.records "task_tag",
              db.base.equals (link "task_id") (row ⟨"project__task", "id"⟩) = true ∧
                ∃ tag ∈ [4, 7].map (db.base.bound ∘ Param.int), db.base.equals (link "tag_id") tag = true)) ∧
        (cond.truth tagDatabase.engine (task 1)).holds = false ∧ (cond.truth tagDatabase.engine (task 2)).holds = true := by
  intro l c q joins task
  have hsteady : c.backend.Steady :=
    ⟨fun _ _ _ _ _ => rfl, fun _ _ _ _ _ _ => rfl, fun _ _ _ _ _ => rfl, fun _ _ _ _ => rfl⟩
  have hm : c.registry.model "project" = .ok projectModel := rfl
  have hdelegates : Delegates c.registry "tags" ⟨projectModel, "project"⟩ joins ⟨taggedTask, "project__task"⟩ := by
    have halias : makeAlias "project" "task" = "project__task" := by decide
    have hresolve : c.registry.resolve? projectModel "tags" = some (.inherited taggedTask "task") := rfl
    have hparent := Delegates.parent (p := ⟨projectModel, "project"⟩) hresolve (.here _)
    rwa [halias] at hparent
  have hl : AsksForRecords taggedTask l := .many2many (f := Field.many2many "tags" "tag" ⟨"task_tag", "task_id", "tag_id"⟩)
    rfl rfl rfl rfl
  refine ⟨valid_projects, keepsIds_projects, hsteady, hm, hdelegates, hl, rfl, Nat.le_refl 3, ?_⟩
  rcases compile_parts c valid_projects keepsIds_projects hsteady hm (l := l) (q := q) hdelegates hl rfl
    (Nat.le_refl 3) with ⟨hnone, -⟩ | ⟨asked, lacks, cond, cond', hrequires, hruns, htells⟩
  · exact absurd (.links rfl rfl rfl rfl rfl (.searched rfl rfl rfl)) (hnone _ _)
  obtain ⟨rfl, rfl⟩ := requires_tags hrequires
  have hlinked : ∀ {V : Type} (db : Database V) (row : Row V), row ⟨"project__task", "id"⟩ ≠ none →
      cond.truth db.engine row ≠ .unknown ∧ cond'.truth db.engine row ≠ .unknown ∧
        (cond'.truth db.engine row).holds = !(cond.truth db.engine row).holds ∧
        ((cond.truth db.engine row).holds = true ↔ ¬∃ link ∈ db.records "task_tag",
          db.base.equals (link "task_id") (row ⟨"project__task", "id"⟩) = true ∧
            ∃ tag ∈ [4, 7].map (db.base.bound ∘ Param.int), db.base.equals (link "tag_id") tag = true) :=
    fun db row hrow => by
      obtain ⟨hknown, hknown', hopposite, hholds⟩ := htells db row hrow
      exact ⟨hknown, hknown', hopposite, hholds.trans (iff_false_right Bool.noConfusion)⟩
  obtain ⟨-, -, -, hfirst⟩ := hlinked tagDatabase (task 1) (by decide)
  obtain ⟨-, -, -, hsecond⟩ := hlinked tagDatabase (task 2) (by decide)
  exact ⟨cond, cond', hruns, hlinked, Bool.eq_false_iff.mpr (mt hfirst.mp (by decide)), hsecond.mpr (by decide)⟩

end Compile
end RecordFilter
