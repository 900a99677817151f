import RecordFilter.Proofs.Compile.EmptySets

/-! Paths through relations: a leaf at the end of a path holds for a record just where a chain of records leads
    from it, each related to the one before through the next field of the path, to one for which the leaf
    itself holds. Each field has an encoding of its own, a list of ids, a list of owners or the rows of a
    relation table, but all of them say that a related record is among those that a query finds. -/

namespace RecordFilter

/-- Every model has the id that models get by themselves. -/
def Registry.KeepsIds (r : Registry) : Prop :=
  ∀ m, r.Has m → m.field? "id" = some { name := "id", type := .integer }

namespace Compile
open Sql

/-! ### Routes -/

/-- How a field relates records. -/
inductive Relating
  /-- The field holds the id of the other record. -/
  | many2one
  /-- A field of the other record holds the id of the record. -/
  | one2many (inverse : String)
  /-- A row of a table holds both ids. -/
  | many2many (relation : Relation)

/-- A step of a path: a field, how it relates records, and the model of the other records. -/
structure Hop where
  field : String
  relating : Relating
  target : Model

/-- The field relates records as the hop says. -/
def Relating.Fits (f : Field) (target : Model) : Relating → Prop
  | .many2one => f.type = .many2one
  | .one2many inverse => f.type = .one2many ∧ f.inverseName = some inverse ∧
      ∃ g, target.field? inverse = some g ∧ g.type = .many2one ∧ g.store
  | .many2many relation => f.type = .many2many ∧ f.relation = some relation

/-- The hop goes through a relational field of the model that has a column or a table and is not joined. -/
structure Hop.Leaves (r : Registry) (m : Model) (h : Hop) (f : Field) : Prop where
  field : m.field? h.field = some f
  store : f.store
  autoJoin : f.autoJoin = false
  comodel : r.comodel f = .ok h.target
  relating : h.relating.Fits f h.target

/-- The hops lead from a model to a model. -/
inductive Route (r : Registry) : Model → List Hop → Model → Prop
  | nil (m) : Route r m [] m
  | cons {m h f hops target} : h.Leaves r m f → Route r h.target hops target → Route r m (h :: hops) target

/-- The path of some hops and a field. -/
def dotted : List Hop → String → String
  | [], name => name
  | h :: hops, name => h.field ++ "." ++ dotted hops name

/-! ### Chains of records -/

section
variable {V : Type} (db : Database V)

/-- The second record is related to the first one through the hop. -/
def Hop.Relates (h : Hop) (a b : Record V) : Prop :=
  match h.relating with
  | .many2one => db.base.equals (a h.field) (b "id") = true
  | .one2many inverse => db.base.equals (a "id") (b inverse) = true
  | .many2many relation => ∃ link ∈ db.records relation.table,
      db.base.equals (link relation.column1) (a "id") = true ∧ db.base.equals (link relation.column2) (b "id") = true

/-- Records of the tables on the way lead from the first record to the last one. -/
inductive Chain : List Hop → Record V → Record V → Prop
  | nil (a) : Chain [] a a
  | cons {h hops a b last} : b ∈ db.records h.target.table → h.Relates db a b → Chain hops b last →
      Chain (h :: hops) a last

/-- The ids of a table are not null, and each belongs to one record. -/
def Identified (r : Registry) : Prop :=
  ∀ m, r.Has m → ∀ a ∈ db.records m.table, ∀ b ∈ db.records m.table, db.base.equals (a "id") (b "id") = true ↔ a = b

end

/-! ### The fields of a route -/

section
variable {r : Registry} {m : Model} {h : Hop} {f : Field}

theorem Hop.Leaves.has (hl : h.Leaves r m f) : r.Has h.target := Registry.has_of_comodel hl.comodel

theorem Hop.Leaves.dotless (hr : r.Valid) (hm : r.Has m) (hl : h.Leaves r m f) : '.' ∉ h.field.toList :=
  Text.not_mem_of_isIdentifier (hr.isIdentifier_field hm hl.field) (by decide)

theorem Hop.Leaves.resolve (hl : h.Leaves r m f) : r.resolve? m h.field = some (.local f) := by
  rw [Registry.resolve?, hl.field]

theorem Hop.Leaves.relational (hl : h.Leaves r m f) : f.type.isRelational = true := by
  have hfits := hl.relating
  cases hk : h.relating <;> rw [hk] at hfits
  · rw [show f.type = .many2one from hfits]
    rfl
  · rw [hfits.1]
    rfl
  · rw [hfits.1]
    rfl

/-- A path through the field is searched apart. -/
theorem Hop.Leaves.classify_path (hr : r.Valid) (hm : r.Has m) (hl : h.Leaves r m f) (rest : String) (op : Operator)
    (right : Operand) :
    classify r m ⟨h.field ++ "." ++ rest, op, right⟩ = .ok (.path f h.target rest) := by
  unfold classify
  rw [Leaf.path_append (hl.dotless hr hm)]
  dsimp only
  rw [hl.resolve]
  dsimp only
  unfold classifyPath
  simp [hl.store, hl.relational, hl.comodel, hl.autoJoin]

/-- The kind of a leaf on the field alone. -/
def Hop.kind (h : Hop) (f : Field) : FieldKind :=
  match h.relating with
  | .many2one => .many2one h.target
  | .one2many _ => .one2many f h.target
  | .many2many _ => .many2many f h.target

theorem Hop.Leaves.classify_field (hr : r.Valid) (hm : r.Has m) (hl : h.Leaves r m f) (right : Operand) :
    classify r m ⟨h.field, .within, right⟩ = .ok (h.kind f) := by
  have hfits := hl.relating
  unfold classify
  rw [Leaf.path_of_dotless (hl.dotless hr hm)]
  dsimp only
  rw [hl.resolve]
  simp only [Operator.isHierarchy, Bool.and_false, Bool.false_eq_true, if_false]
  unfold classifyField Hop.kind
  cases hk : h.relating <;> rw [hk] at hfits
  · simp [hl.store, show f.type = .many2one from hfits, hl.comodel, Except.map]
  · simp [hl.store, hfits.1, hl.comodel, Except.map]
  · simp [hl.store, hfits.1, hl.comodel, Except.map]

theorem classify_id (hid : r.KeepsIds) (hm : r.Has m) (right : Operand) :
    classify r m ⟨"id", .within, right⟩ = .ok .plain := by
  unfold classify
  rw [Leaf.path_of_dotless (by decide)]
  dsimp only
  rw [Registry.resolve?, hid m hm]
  rfl

end

/-! ### Compiling a hop -/

section
variable {s : Setting} {build : QueryBuilder} {p : Place} {h : Hop} {f : Field}

/-- The condition that the hop leads to one of the found records. -/
def Hop.condition (h : Hop) (p : Place) : Found → Cond
  | .nothing => .literal false
  | .rows q =>
    match h.relating with
    | .many2one => .group (.member (.column (p.column h.field)) true (.select q.ids))
    | .one2many inverse =>
      .group (.member (.column (p.column "id")) true (.select (.owners h.target.table inverse (.select q.ids))))
    | .many2many relation => .linked true (linkedTo.link p h.field relation) (.select q.ids)

/-- A column compared with an empty list. -/
theorem plainCondition_nil {ctx : Context} {name : String} (hf : p.model.field? name = some f) :
    plainCondition ⟨name, .within, .value (.arr [])⟩ p ctx = .ok (.literal false) := by
  unfold plainCondition
  rw [hf]
  rfl

theorem plainCondition_subquery {ctx : Context} {name : String} (hf : p.model.field? name = some f) (sub : Select) :
    plainCondition ⟨name, .within, .subquery sub⟩ p ctx =
      .ok (.group (.member (.column (p.column name)) true (.select sub))) := by
  unfold plainCondition
  rw [hf]
  rfl

theorem Hop.Leaves.many2one_settles (hr : s.registry.Valid) (hm : s.registry.Has p.model)
    (hl : h.Leaves s.registry p.model f) (hk : h.relating = .many2one) (found : Found) :
    Settles s build 1 ⟨h.field, .within, found.operand⟩ p (h.condition p found) := by
  have hclass := hl.classify_field hr hm found.operand
  rw [Hop.kind, hk] at hclass
  refine settles_emit (reduce_of_classify (by simp) hclass ?_)
  cases found with
  | nothing => exact emitLeaf_yields (plainCondition_nil hl.field)
  | rows q =>
    have hcondition : h.condition p (.rows q) = .group (.member (.column (p.column h.field)) true (.select q.ids)) := by
      rw [Hop.condition, hk]
    rw [hcondition]
    exact emitLeaf_yields (plainCondition_subquery hl.field q.ids)

theorem Hop.Leaves.many2many_settles (hr : s.registry.Valid) (hm : s.registry.Has p.model)
    (hl : h.Leaves s.registry p.model f) {relation : Relation} (hk : h.relating = .many2many relation) (found : Found) :
    Settles s build 1 ⟨h.field, .within, found.operand⟩ p (h.condition p found) := by
  have hclass := hl.classify_field hr hm found.operand
  have hfits := hl.relating
  rw [hk] at hfits
  rw [Hop.kind, hk] at hclass
  refine settles_emit (reduce_of_classify (by simp) hclass ?_)
  rw [reduceKind, reduceMany2many, hfits.2, hr.name_field hm hl.field]
  cases found with
  | nothing => exact .bind (a := .ids []) (.pure _) (.pure _)
  | rows q =>
    have hcondition : h.condition p (.rows q) = .linked true (linkedTo.link p h.field relation) (.select q.ids) := by
      rw [Hop.condition, hk]
    rw [hcondition]
    exact .bind (a := .rows q.ids) (.pure _) (.pure _)

/-- A one2many field takes a second step: the owners of the found lines are compared with the id. -/
theorem Hop.Leaves.one2many_settles (hr : s.registry.Valid) (hid : s.registry.KeepsIds) (hm : s.registry.Has p.model)
    (hl : h.Leaves s.registry p.model f) {inverse : String} (hk : h.relating = .one2many inverse) (found : Found) :
    ∃ n ≤ 2, Settles s build n ⟨h.field, .within, found.operand⟩ p (h.condition p found) := by
  have hclass := hl.classify_field hr hm found.operand
  have hfits := hl.relating
  rw [hk] at hfits
  rw [Hop.kind, hk] at hclass
  obtain ⟨htype, hname, g, hg, -, hstore⟩ := hfits
  have hinverse : inverseField p.model f h.target = .ok { g with name := inverse } := by
    rw [inverseField, inverseName, hname]
    dsimp only
    rw [hg]
  cases found with
  | nothing =>
    refine ⟨1, by omega, settles_emit (reduce_of_classify (by simp) hclass ?_)⟩
    rw [reduceKind, reduceOne2many]
    exact .bind (.ofExcept hinverse) (.bind (a := .ids []) (.pure _) (.pure _))
  | rows q =>
    have hcondition : h.condition p (.rows q) = .group (.member (.column (p.column "id")) true
        (.select (.owners h.target.table inverse (.select q.ids)))) := by
      rw [Hop.condition, hk]
    let owners : Operand := .subquery (.owners h.target.table inverse (.select q.ids))
    have hsecond : Settles s build 1 ⟨"id", .within, owners⟩ p (h.condition p (.rows q)) := by
      rw [hcondition]
      exact settles_emit (reduce_of_classify (by simp) (classify_id hid hm owners)
        (emitLeaf_yields (plainCondition_subquery (hid _ hm) _)))
    refine ⟨2, Nat.le_refl 2, hsecond.replaced (reduce_of_classify (by simp) hclass ?_)⟩
    rw [reduceKind, reduceOne2many]
    refine .bind (.ofExcept hinverse) (.bind (a := .rows q.ids) (.pure _) ?_)
    simp only [hstore]
    exact .pure _

theorem Hop.Leaves.settles (hr : s.registry.Valid) (hid : s.registry.KeepsIds) (hm : s.registry.Has p.model)
    (hl : h.Leaves s.registry p.model f) (found : Found) :
    ∃ n ≤ 2, Settles s build n ⟨h.field, .within, found.operand⟩ p (h.condition p found) := by
  cases hk : h.relating with
  | many2one => exact ⟨1, by omega, hl.many2one_settles hr hm hk found⟩
  | one2many inverse => exact hl.one2many_settles hr hid hm hk found
  | many2many relation => exact ⟨1, by omega, hl.many2many_settles hr hm hk found⟩

/-- A path through the field settles where the search for the records at the rest of the path does. -/
theorem Hop.Leaves.path_settles (hr : s.registry.Valid) (hid : s.registry.KeepsIds) (hm : s.registry.Has p.model)
    (hl : h.Leaves s.registry p.model f) (hactive : s.context.activeTest = false) {rest : String} {op : Operator}
    {right : Operand} (hop : op ≠ .eqIfSet) {found : Found}
    (hfound : (findWith build s.context h.target.name (.ofLeaf rest op right)).Yields found) :
    ∃ n ≤ 3, Settles s build n ⟨h.field ++ "." ++ rest, op, right⟩ p (h.condition p found) := by
  obtain ⟨n, hn, hsettles⟩ : ∃ n ≤ 2, Settles s build n ⟨h.field, .within, found.operand⟩ p (h.condition p found) :=
    hl.settles hr hid hm found
  refine ⟨n + 1, by omega, hsettles.replaced (reduce_of_classify hop (hl.classify_path hr hm rest op right) ?_)⟩
  have hctx : { s.context with activeTest := false } = s.context := by rw [← hactive]
  have operand : (findWith build s.context h.target.name (.ofLeaf rest op right) >>=
      fun x => pure x.operand : Run Operand).Yields found.operand := .bind hfound (.pure _)
  have htarget : (reducePath.target s build p f h.target (.ofLeaf rest op right)).Yields found.operand := by
    have hfits := hl.relating
    unfold reducePath.target
    cases hk : h.relating with
    | many2one =>
      rw [hk] at hfits
      rw [show f.type = .many2one from hfits]
      dsimp only
      rw [hctx]
      exact operand
    | one2many inverse =>
      rw [hk] at hfits
      obtain ⟨htype, hname, g, hg, -, hstore⟩ := hfits
      rw [htype]
      refine .bind (a := inverse) (.ofExcept (by rw [inverseName, hname])) ?_
      rw [hg]
      simp only [Option.any_some, hstore, Bool.not_true, Bool.false_eq_true, if_false]
      exact operand
    | many2many relation =>
      rw [hk] at hfits
      rw [hfits.1]
      exact operand
  have hhead : (Leaf.mk (h.field ++ "." ++ rest) op right).path.1 = h.field := by
    rw [Leaf.path_append (hl.dotless hr hm)]
  rw [reduceKind, reducePath, hhead]
  exact .bind htarget (.pure _)

end

/-! ### What the condition of a hop says -/

section
variable {V : Type} {db : Database V} {r : Registry} {p : Place} {h : Hop} {row : Row V} {a : Record V}

/-- The search found the records of a table with a property. -/
def FoundBy (db : Database V) (table : String) (P : Record V → Prop) : Found → Prop
  | .nothing => ∀ b ∈ db.records table, ¬P b
  | .rows q => ∀ x, x ∈ db.engine.rows q.ids ↔ ∃ b ∈ db.records table, P b ∧ b "id" = x

/-- The query of a table with a condition finds the records for which the condition is true. -/
theorem foundBy_ofTable (table : String) (c : Cond) :
    FoundBy db table (fun b => (c.truth db.engine (b.under table)).holds = true)
      (.rows (inIdOrder ((Query.ofTable table).addCondition c))) := by
  intro x
  show x ∈ db.engine.rows (.rows (.column ⟨table, "id"⟩) ⟨table, table, []⟩ c {}) ↔ _
  rw [Database.mem_rows]
  show (∃ row ∈ (db.records table).map (·.under table), _) ↔ _
  constructor
  · rintro ⟨_, hrow, hc, rfl⟩
    obtain ⟨b, hb, rfl⟩ := List.mem_map.mp hrow
    exact ⟨b, hb, hc, (b.under_column table "id").symm⟩
  · rintro ⟨b, hb, hc, rfl⟩
    exact ⟨_, List.mem_map_of_mem hb, hc, b.under_column table "id"⟩

theorem exists_found {table : String} {P : Record V → Prop} {q : Query} (hq : FoundBy db table P (.rows q))
    {v : Option V} : (∃ x ∈ db.engine.rows q.ids, db.base.equals v x = true) ↔
      ∃ b ∈ db.records table, db.base.equals v (b "id") = true ∧ P b := by
  constructor
  · rintro ⟨x, hx, heq⟩
    obtain ⟨b, hb, hP, rfl⟩ := (hq x).mp hx
    exact ⟨b, hb, heq, hP⟩
  · rintro ⟨b, hb, heq, hP⟩
    exact ⟨b "id", (hq _).mpr ⟨b, hb, hP, rfl⟩, heq⟩

/-- The condition of a hop is true just where one of the found records is related to the record. -/
theorem Hop.holds_condition (hident : Identified db r) (hm : r.Has h.target)
    (hrow : ∀ name, row ⟨p.tableAlias, name⟩ = a name) {P : Record V → Prop} {found : Found}
    (hfound : FoundBy db h.target.table P found) :
    ((h.condition p found).truth db.engine row).holds = true ↔
      ∃ b ∈ db.records h.target.table, h.Relates db a b ∧ P b := by
  cases found with
  | nothing =>
    refine iff_of_false nofun ?_
    rintro ⟨b, hb, -, hP⟩
    exact hfound b hb hP
  | rows q =>
    unfold Hop.condition Hop.Relates
    cases h.relating with
    | many2one =>
      refine Database.holds_member db |>.trans ?_
      show (∃ v ∈ db.engine.rows q.ids, db.base.equals (row ⟨p.tableAlias, h.field⟩) v = true) ↔ _
      rw [hrow, exists_found hfound]
    | one2many inverse =>
      refine Database.holds_member db |>.trans ?_
      show (∃ v ∈ db.engine.rows (.owners _ inverse (.select q.ids)),
        db.base.equals (row ⟨p.tableAlias, "id"⟩) v = true) ↔ _
      simp only [Database.mem_owners, Engine.holds_member, hrow]
      constructor
      · rintro ⟨_, ⟨b, hb, hmember, rfl, -⟩, heq⟩
        obtain ⟨b', hb', hid, hP⟩ := (exists_found hfound).mp hmember
        -- The two lines have one id.
        have hsame : b = b' := (hident _ hm b hb b' hb').mp hid
        exact ⟨b, hb, heq, hsame ▸ hP⟩
      · rintro ⟨b, hb, heq, hP⟩
        have hid : db.base.equals (b "id") (b "id") = true := (hident _ hm b hb b hb).mpr rfl
        exact ⟨_, ⟨b, hb, (exists_found hfound).mpr ⟨b, hb, hid, hP⟩, rfl, Engine.isSome_of_equals _ heq⟩, heq⟩
    | many2many relation =>
      refine Database.holds_linked db |>.trans ?_
      show (∃ link ∈ db.records relation.table, db.base.equals (link relation.column1) (row ⟨p.tableAlias, "id"⟩) = true ∧
        ∃ v ∈ db.engine.rows q.ids, db.base.equals (link relation.column2) v = true) ↔ _
      simp only [hrow, exists_found hfound]
      constructor
      · rintro ⟨link, hlink, howner, b, hb, hid, hP⟩
        exact ⟨b, hb, ⟨link, hlink, howner, hid⟩, hP⟩
      · rintro ⟨b, hb, ⟨link, hlink, howner, hid⟩, hP⟩
        exact ⟨link, hlink, howner, b, hb, hid, hP⟩

end

/-! ### Whole routes -/

/-- A leaf on a plain column of a model, with a list if it is about membership, and its condition. -/
structure Endpoint (r : Registry) (ctx : Context) (m : Model) (l : Leaf) (c : Cond) : Prop where
  plain : classify r m l = .ok .plain
  op : l.op ≠ .eqIfSet
  listed : l.op = .within ∨ l.op = .notIn → ∃ items, l.right = .value (.arr items)
  condition : plainCondition l ⟨m, m.table⟩ ctx = .ok c

/-- The leaf at the end of some hops. -/
def behind (hops : List Hop) (l : Leaf) : Leaf := { l with left := dotted hops l.left }

/-- On a row that holds a record under an alias, the condition says that a chain leads from the record to one for
    which the last condition is true. -/
def SaysChain (r : Registry) (hops : List Hop) (target : Model) (last : Cond) (tableAlias : String) (c : Cond) : Prop :=
  ∀ {V : Type} (db : Database V), Identified db r → ∀ (row : Row V) (a : Record V),
    (∀ name, row ⟨tableAlias, name⟩ = a name) →
      ((c.truth db.engine row).holds = true ↔
        ∃ b, Chain db hops a b ∧ (last.truth db.engine (b.under target.table)).holds = true)

/-- The same of the records of a table alone. -/
def FindsChains (r : Registry) (hops : List Hop) (target : Model) (last : Cond) (table : String) (c : Cond) : Prop :=
  ∀ {V : Type} (db : Database V), Identified db r → ∀ a : Record V,
    ((c.truth db.engine (a.under table)).holds = true ↔
      ∃ b, Chain db hops a b ∧ (last.truth db.engine (b.under target.table)).holds = true)

/-- A leaf with an empty list at the end of a path is searched for nowhere. -/
theorem Endpoint.isFalse {r : Registry} {ctx : Context} {m : Model} {l : Leaf} {c : Cond} (he : Endpoint r ctx m l c)
    (name : String) :
    (∃ v, l.op = .within ∧ l.right = .value v ∧ (Operand.value v).isEmptySet ∧ (Operand.value v).isUnlisted = false ∧
      (Domain.ofLeaf name l.op l.right).isFalse = .ok true) ∨ (Domain.ofLeaf name l.op l.right).isFalse = .ok false := by
  have hterms : Domain.terms? (Domain.ofLeaf name l.op l.right) = some [.leaf ⟨name, l.op, l.right⟩] := rfl
  have hverdict : ∀ b : Bool, decide ((Leaf.mk name l.op l.right).verdict = .never) = b →
      (Domain.ofLeaf name l.op l.right).isFalse = .ok b := fun b hb => by
    rw [Domain.isFalse_of_terms? hterms]
    exact congrArg Except.ok hb
  by_cases hnever : (Leaf.mk name l.op l.right).verdict = .never
  · obtain ⟨hop, hempty⟩ := Leaf.verdict_eq_never.mp hnever
    obtain ⟨items, hitems⟩ := he.listed (.inl hop)
    dsimp only at hop hempty
    rw [hitems] at hempty
    exact .inl ⟨_, hop, hitems, hempty, rfl, hverdict true (decide_eq_true hnever)⟩
  · exact .inr (hverdict false (decide_eq_false hnever))

section
variable {c : Compiler} {target : Model} {l : Leaf} {last : Cond}

/-- The first hop of a route, when the rest of the route is known to settle on the table of its own model. -/
theorem Route.first (hr : c.registry.Valid) (hid : c.registry.KeepsIds) (hactive : c.context.activeTest = false)
    (he : Endpoint c.registry c.context target l last) {h : Hop} {f : Field} {hops : List Hop} {p : Place}
    (hm : c.registry.Has p.model) (hl : h.Leaves c.registry p.model f)
    (hrest : ∃ cond, (∀ fuel ≥ hops.length + 3, ∃ n ≤ 3, Settles (c.setting c.context) (c.queryIn fuel) n
        (behind hops l) ⟨h.target, h.target.table⟩ cond) ∧
      FindsChains c.registry hops target last h.target.table cond) :
    ∃ cond, (∀ fuel ≥ hops.length + 4, ∃ n ≤ 3, Settles (c.setting c.context) (c.queryIn fuel) n
        (behind (h :: hops) l) p cond) ∧
      SaysChain c.registry (h :: hops) target last p.tableAlias cond := by
  obtain ⟨rest, hsettles, hmeans⟩ := hrest
  have hmodel : c.registry.model h.target.name = .ok h.target := hr.built.model_eq hl.has
  -- A chain from the record is a related record and a chain from there.
  have chain : ∀ {V : Type} (db : Database V), Identified db c.registry → ∀ (row : Row V) (a : Record V),
      (∀ name, row ⟨p.tableAlias, name⟩ = a name) → ∀ {found : Found},
      FoundBy db h.target.table (fun b => ∃ b', Chain db hops b b' ∧
        (last.truth db.engine (b'.under target.table)).holds = true) found →
      (((h.condition p found).truth db.engine row).holds = true ↔
        ∃ b, Chain db (h :: hops) a b ∧ (last.truth db.engine (b.under target.table)).holds = true) := by
    intro V db hident row a hrow found hfound
    rw [h.holds_condition hident hl.has hrow hfound]
    constructor
    · rintro ⟨b, hb, hrel, b', hchain, hlast⟩
      exact ⟨b', .cons hb hrel hchain, hlast⟩
    · rintro ⟨b', hchain, hlast⟩
      cases hchain with
      | cons hb hrel hchain => exact ⟨_, hb, hrel, b', hchain, hlast⟩
  rcases he.isFalse (dotted hops l.left) with ⟨v, hop, hright, hempty, hlist, hfalse⟩ | hfalse
  · refine ⟨h.condition p .nothing, fun fuel _ => ?_, fun db hident row a hrow => chain db hident row a hrow ?_⟩
    · refine hl.path_settles hr hid hm hactive he.op fun t => ⟨t, ?_⟩
      rw [findWith, hfalse]
      rfl
    · rintro b - ⟨b', -, hlast⟩
      have hseeks : SeeksNothing db l := by
        obtain ⟨left, op, right⟩ := l
        cases hop
        cases hright
        exact .value hempty
      have hnone := hseeks.plainCondition (hright ▸ hlist) he.condition (b'.under target.table)
      rw [hnone] at hlast
      cases hlast
  · refine ⟨h.condition p (.rows (inIdOrder ((Query.ofTable h.target.table).addCondition rest))), fun fuel hfuel => ?_,
      fun db hident row a hrow => chain db hident row a hrow ?_⟩
    · obtain ⟨k, rfl⟩ := Nat.exists_eq_add_of_le' (Nat.le_trans (Nat.le_add_left 1 (hops.length + 3)) hfuel)
      obtain ⟨n, hn, hsettle⟩ := hsettles k (by omega)
      have hquery := hsettle.queryIn (by omega) hmodel hactive
      refine hl.path_settles hr hid hm hactive he.op ?_
      unfold findWith
      rw [hfalse]
      exact .bind (.pure false) (.bind hquery (.pure _))
    · intro x
      rw [foundBy_ofTable h.target.table rest x]
      simp only [hmeans db hident]

/-- A leaf at the end of a route settles on the table of the route's first model. -/
theorem Route.settles (hr : c.registry.Valid) (hid : c.registry.KeepsIds) (hactive : c.context.activeTest = false)
    (he : Endpoint c.registry c.context target l last) {m : Model} {hops : List Hop}
    (hroute : Route c.registry m hops target) (hm : c.registry.Has m) :
    ∃ cond, (∀ fuel ≥ hops.length + 3, ∃ n ≤ 3, Settles (c.setting c.context) (c.queryIn fuel) n
        (behind hops l) ⟨m, m.table⟩ cond) ∧
      FindsChains c.registry hops target last m.table cond := by
  induction hroute with
  | nil m =>
    refine ⟨last, fun fuel _ => ⟨1, by omega, settles_emit (reduce_of_classify he.op he.plain ?_)⟩, fun db _ a => ?_⟩
    · exact emitLeaf_yields he.condition
    · constructor
      · exact fun h => ⟨a, .nil a, h⟩
      · rintro ⟨b, hchain, h⟩
        cases hchain
        exact h
  | cons hl _ ih =>
    obtain ⟨cond, hsettles, hmeans⟩ := Route.first (p := ⟨_, _⟩) hr hid hactive he hm hl (ih he hl.has)
    exact ⟨cond, hsettles, fun db hident a => hmeans db hident _ a fun name => a.under_column _ name⟩

end

/-- Over an accepted registry whose models keep their ids, where records out of use are not hidden: a leaf on a plain
    column behind one or more relations compiles, with fuel for each of them, and its condition is true for a record
    just where a chain of related records leads from it to one for which the condition of the leaf itself is. -/
theorem compile_route (c : Compiler) (hr : c.registry.Valid) (hid : c.registry.KeepsIds)
    (hactive : c.context.activeTest = false) {model : String} {m : Model} (hm : c.registry.model model = .ok m)
    {hops : List Hop} (hne : hops ≠ []) {target : Model} (hroute : Route c.registry m hops target) {l : Leaf}
    {last : Cond} (he : Endpoint c.registry c.context target l last) (q : Query) :
    ∃ cond, (∀ fuel ≥ hops.length + 3, ∀ tr, ∃ tr',
        (c.compile fuel model [.leaf (behind hops l)] q).run tr = ((.ok (), q.addCondition cond), tr')) ∧
      ∀ {V : Type} (db : Database V), Identified db c.registry → ∀ (row : Row V) (a : Record V),
        (∀ name, row ⟨q.tableAlias, name⟩ = a name) →
          ((cond.truth db.engine row).holds = true ↔
            ∃ b, Chain db hops a b ∧ (last.truth db.engine (b.under target.table)).holds = true) := by
  have hhas := Registry.has_of_model hm
  cases hroute with
  | nil m => exact absurd rfl hne
  | @cons _ h f hops _ hl hroute =>
    have hrest := hroute.settles hr hid hactive he hl.has
    obtain ⟨cond, hsettles, hmeans⟩ := Route.first (p := ⟨m, q.tableAlias⟩) hr hid hactive he hhas hl hrest
    refine ⟨cond, fun fuel hfuel tr => ?_, hmeans⟩
    rw [List.length_cons] at hfuel
    obtain ⟨n, hn, hsettle⟩ := hsettles fuel (by omega)
    exact hsettle.compileWith (by omega) hm rfl tr

/-! ### Notes on tasks with tags -/

/-- A task has notes and tags. -/
def taggedTask : Model :=
  ((Model.ofTable "task" "task").withField (Field.one2many "notes" "note" "task")).withField
    (Field.many2many "tags" "tag" ⟨"task_tag", "task_id", "tag_id"⟩)

/-- A note is about a task. -/
def noteModel : Model := (Model.ofTable "note" "note").withField (Field.many2one "task" "task")

def tagModel : Model := (Model.ofTable "tag" "tag").withField { name := "name", type := .char }

/-- A compiler for tasks, notes and tags, without a database. -/
def noteCompiler : Compiler where
  registry := { models := ((Keyed.empty.insert "task" taggedTask).insert "note" noteModel).insert "tag" tagModel }
  context := taskCompiler.context

theorem valid_notes : noteCompiler.registry.Valid where
  built := .register (m := tagModel) (.register (m := noteModel) (.register (m := taggedTask) .empty rfl) rfl) rfl
  validated := rfl

theorem keepsIds_notes : noteCompiler.registry.KeepsIds := by
  rintro m ⟨name, hname⟩
  have hmem : (name, m) ∈ [("note", noteModel), ("tag", tagModel), ("task", taggedTask)] := Registry.mem_of_lookup hname
  simp only [List.mem_cons, List.not_mem_nil, or_false, Prod.mk.injEq] at hmem
  rcases hmem with ⟨-, rfl⟩ | ⟨-, rfl⟩ | ⟨-, rfl⟩ <;> rfl

/-- Tasks with a note on a task with a tag of some name: through lines, a reference and a relation table. -/
theorem compile_route_notes :
    let hops : List Hop := [⟨"notes", .one2many "task", noteModel⟩, ⟨"task", .many2one, taggedTask⟩,
      ⟨"tags", .many2many ⟨"task_tag", "task_id", "tag_id"⟩, tagModel⟩]
    let l : Leaf := ⟨"name", .ilike, .value (.str "urgent")⟩
    let c := noteCompiler
    ∃ last, c.registry.Valid ∧ c.registry.KeepsIds ∧ c.context.activeTest = false ∧
      c.registry.model "task" = .ok taggedTask ∧ hops ≠ [] ∧ Route c.registry taggedTask hops tagModel ∧
      Endpoint c.registry c.context tagModel l last ∧
      behind hops l = { l with left := "notes.task.tags.name" } ∧
      ∃ cond tr', (c.compile 6 "task" [.leaf (behind hops l)] (.ofTable "task")).run {} =
          ((.ok (), (Query.ofTable "task").addCondition cond), tr') ∧
        ∀ {V : Type} (db : Database V), Identified db c.registry → ∀ a : Record V,
          ((cond.truth db.engine (a.under "task")).holds = true ↔
            ∃ b, Chain db hops a b ∧ (last.truth db.engine (b.under "tag")).holds = true) := by
  intro hops l c
  have hroute : Route c.registry taggedTask hops tagModel :=
    .cons ⟨rfl, rfl, rfl, rfl, ⟨rfl, rfl, _, rfl, rfl, rfl⟩⟩
      (.cons ⟨rfl, rfl, rfl, rfl, rfl⟩ (.cons ⟨rfl, rfl, rfl, rfl, ⟨rfl, rfl⟩⟩ (.nil tagModel)))
  have hplain : classify noteCompiler.registry tagModel ⟨"name", .ilike, .value (.str "urgent")⟩ = .ok .plain := rfl
  have he : Endpoint c.registry c.context tagModel l
      (.group (.compare (.cast ⟨"tag", "name"⟩) .ilike (.text "%urgent%") false)) :=
    { plain := hplain
      op := by simp [l]
      listed := by
        rintro (h | h) <;> cases h
      condition := rfl }
  have hm : c.registry.model "task" = .ok taggedTask := rfl
  refine ⟨_, valid_notes, keepsIds_notes, rfl, hm, by simp [hops], hroute, he, rfl, ?_⟩
  obtain ⟨cond, hrun, hmeans⟩ :=
    compile_route c valid_notes keepsIds_notes rfl hm (by simp [hops]) hroute he (.ofTable "task")
  obtain ⟨tr', h⟩ := hrun 6 (Nat.le_refl 6) {}
  exact ⟨cond, tr', h, fun db hident a => hmeans db hident _ a fun name => a.under_column _ name⟩

end Compile
end RecordFilter
