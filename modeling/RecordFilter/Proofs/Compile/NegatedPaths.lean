import RecordFilter.Proofs.Compile.RetainedNot

/-! Negations of paths through fields that relate a record to many. The operator of the leaf is negated before the path
    is followed, so the negation asks once more for some related record, now for one that the negated leaf finds. A
    record with related records of both kinds is found both ways, and a record without related records neither way. -/

namespace RecordFilter.Compile
open Sql

/-! ### Related records -/

/-- Where the relation of a record to many others is kept: in a column of their table, or in a table of its own. -/
inductive Branching
  | lines (table inverse : String)
  | linked (relation : Relation)

section
variable {V : Type} (db : Database V)

/-- The ids of the records that are related to the record with an id. -/
def Branching.ids (id : Option V) : Branching → List (Option V)
  | .lines table inverse => ((db.records table).filter fun line => db.base.equals id (line inverse)).map (· "id")
  | .linked relation =>
    ((db.records relation.table).filter fun link => db.base.equals (link relation.column1) id).map (· relation.column2)

/-- The record with an id is among the found ones. -/
def Found.Has (id : Option V) : Found → Prop
  | .nothing => False
  | .rows q => ∃ x ∈ db.engine.rows q.ids, db.base.equals id x = true

end

/-- The condition that a related record was found. -/
def Branching.condition (b : Branching) (p : Place) (name : String) : Found → Cond
  | .nothing => .literal false
  | .rows q =>
    match b with
    | .lines table inverse => idWithin p (.owners table inverse (.select q.ids))
    | .linked relation => .linked true (linkedTo.link p name relation) (.select q.ids)

theorem Branching.holds_condition {V : Type} (db : Database V) (row : Row V) (b : Branching) (p : Place) (name : String)
    (found : Found) :
    ((b.condition p name found).truth db.engine row).holds = true ↔
      ∃ id ∈ b.ids db (row ⟨p.tableAlias, "id"⟩), found.Has db id := by
  cases found with
  | nothing =>
    refine iff_of_false nofun ?_
    rintro ⟨id, -, hhas⟩
    exact hhas
  | rows q =>
    cases b with
    | lines table inverse =>
      refine (Database.holds_member db).trans ?_
      show (∃ v ∈ db.engine.rows (.owners table inverse (.select q.ids)),
        db.base.equals (row ⟨p.tableAlias, "id"⟩) v = true) ↔ _
      simp only [Database.mem_owners, Engine.holds_member, Branching.ids, List.mem_map, List.mem_filter]
      constructor
      · rintro ⟨_, ⟨line, hline, hfound, rfl, -⟩, heq⟩
        exact ⟨_, ⟨line, ⟨hline, heq⟩, rfl⟩, hfound⟩
      · rintro ⟨_, ⟨line, ⟨hline, heq⟩, rfl⟩, hfound⟩
        exact ⟨_, ⟨line, hline, hfound, rfl, Engine.isSome_of_equals _ heq⟩, heq⟩
    | linked relation =>
      refine (Database.holds_linked db).trans ?_
      simp only [Branching.ids, List.mem_map, List.mem_filter]
      constructor
      · rintro ⟨link, hlink, howner, hfound⟩
        exact ⟨_, ⟨link, ⟨hlink, howner⟩, rfl⟩, hfound⟩
      · rintro ⟨_, ⟨link, ⟨hlink, howner⟩, rfl⟩, hfound⟩
        exact ⟨link, hlink, howner, hfound⟩

/-- A field that is not joined relates records to many others. -/
inductive Branches (r : Registry) (m : Model) (f : Field) (target : Model) : Branching → Prop
  | lines {inverse : Field} : HasLines r m f target inverse → inverse.store →
      Branches r m f target (.lines target.table inverse.name)
  | linked {relation : Relation} : (Hop.mk f.name (.many2many relation) target).Leaves r m f →
      Branches r m f target (.linked relation)

/-- A field that relates records to many others does so in the database, unless the inverse of its lines has no
    column. -/
theorem branches_or_reads {r : Registry} {m : Model} {f : Field} {target : Model} (hr : r.Valid) (hm : r.Has m)
    (hf : m.field? f.name = some f) (hstore : f.store) (hauto : f.autoJoin = false)
    (htype : f.type = .one2many ∨ f.type = .many2many) (hcomodel : r.comodel f = .ok target) :
    (∃ b, Branches r m f target b) ∨ ∃ inverse, HasLines r m f target inverse ∧ inverse.store = false := by
  have hrelational : f.type.isRelational := by rcases htype with h | h <;> rw [h] <;> rfl
  obtain ⟨comodel, target', hname, htarget, hinverse, hrelation⟩ :=
    Registry.checkReference_eq_ok (hr.checkReference hm hf) hrelational
  have hsame : target' = target := by
    unfold Registry.comodel Registry.model at hcomodel
    rw [hname] at hcomodel
    simp only [htarget] at hcomodel
    exact Except.ok.inj hcomodel
  subst hsame
  rcases htype with htype | htype
  · unfold Registry.checkInverse at hinverse
    rw [if_pos htype] at hinverse
    cases hback : f.inverseName with
    | none =>
      rw [hback] at hinverse
      cases hinverse
    | some inverse =>
      simp only [hback] at hinverse
      cases hfield : target'.field? inverse with
      | none =>
        rw [hfield] at hinverse
        cases hinverse
      | some g =>
        have hlines : HasLines r m f target' { g with name := inverse } :=
          { field := hf, store := hstore, type := htype, comodel := hcomodel
            inverse := by simp only [inverseField, inverseName, hback, hfield] }
        cases hcolumn : g.store with
        | true => exact .inl ⟨_, .lines hlines hcolumn⟩
        | false => exact .inr ⟨_, hlines, hcolumn⟩
  · unfold Registry.checkRelation at hrelation
    rw [if_pos (by simp [htype, hstore])] at hrelation
    cases hrel : f.relation with
    | none =>
      rw [hrel] at hrelation
      cases hrelation
    | some relation => exact .inl ⟨_, .linked ⟨hf, hstore, hauto, hcomodel, htype, hrel⟩⟩

/-! ### Compiling a path -/

section
variable {s : Setting} {build : QueryBuilder} {p p' : Place} {f inverse : Field} {target : Model} {l : Leaf}
  {joins : List Join} {t t' : Trace}

/-- A path through the field is searched apart. -/
theorem classify_many {r : Registry} {m : Model} (hr : r.Valid) (hm : r.Has m) (hf : m.field? f.name = some f)
    (hstore : f.store) (hauto : f.autoJoin = false) (hrelational : f.type.isRelational) (hcomodel : r.comodel f = .ok target)
    (rest : String) (op : Operator) (right : Operand) :
    classify r m ⟨f.name ++ "." ++ rest, op, right⟩ = .ok (.path f target rest) := by
  rw [classify_through hr hm hf rest op right]
  simp [classifyPath, hstore, hauto, hrelational, hcomodel]

theorem Branches.settles {b : Branching} (h : Branches s.registry p.model f target b) (build : QueryBuilder)
    (hr : s.registry.Valid) (hm : s.registry.Has p.model)
    (hid : p.model.field? "id" = some { name := "id", type := .integer }) (found : Found) :
    ∃ n ≤ 2, Settles s build n ⟨f.name, .within, found.operand⟩ p (b.condition p f.name found) := by
  cases h with
  | lines hlines hstore =>
    obtain ⟨n, hn, hsettles⟩ := hlines.settles build hr hm hid hstore found
    refine ⟨n, hn, ?_⟩
    cases found <;> exact hsettles
  | @linked relation hleaves =>
    have hsettles : Settles s build 1 ⟨f.name, .within, found.operand⟩ p
        ((Hop.mk f.name (.many2many relation) target).condition p found) := hleaves.many2many_settles hr hm rfl found
    refine ⟨1, by omega, ?_⟩
    cases found <;> exact hsettles

/-- The records at the end of the path are searched for. -/
theorem Branches.target_gives {b : Branching} (h : Branches s.registry p.model f target b) {d : Domain} {operand : Operand}
    (hgives : (reducePath.target s build p f target d).Gives t operand t') :
    ∃ found, (findWith build s.context target.name d).Gives t found t' ∧ operand = found.operand := by
  have searched : (findWith build s.context target.name d >>= fun found => pure found.operand : Run Operand).Gives t operand
      t' → ∃ found, (findWith build s.context target.name d).Gives t found t' ∧ operand = found.operand := fun hgives => by
    obtain ⟨found, t₁, hfound, hpure⟩ := Run.gives_bind.mp hgives
    cases hpure
    exact ⟨found, hfound, rfl⟩
  unfold reducePath.target at hgives
  cases h with
  | lines hlines hstore =>
    obtain ⟨hname, hany⟩ := hlines.inverse_field
    rw [hlines.type] at hgives
    obtain ⟨name, t₁, hback, hgives⟩ := Run.gives_bind.mp hgives
    rw [hname] at hback
    cases hback
    simp only [hany, hstore, Bool.not_true, Bool.false_eq_true, if_false] at hgives
    exact searched hgives
  | linked hleaves =>
    rw [hleaves.relating.1] at hgives
    exact searched hgives

/-- Lines whose inverse has no column are found by the database. -/
theorem HasLines.target_gives (h : HasLines s.registry p.model f target inverse) (hstore : inverse.store = false)
    {d : Domain} {operand : Operand} (hgives : (reducePath.target s build p f target d).Gives t operand t') :
    ∃ lines, (lineIds s target d).Gives t lines t' ∧ operand = .value (.ofIds lines) := by
  obtain ⟨hname, hany⟩ := h.inverse_field
  unfold reducePath.target at hgives
  rw [h.type] at hgives
  obtain ⟨name, t₁, hback, hgives⟩ := Run.gives_bind.mp hgives
  rw [hname] at hback
  cases hback
  simp only [hany, hstore, Bool.not_false, if_true] at hgives
  obtain ⟨lines, t₂, hlines, hpure⟩ := Run.gives_bind.mp hgives
  cases hpure
  exact ⟨lines, hlines, rfl⟩

theorem integers?_ints {ids ids' : List Int} (h : integers? (ids.map Json.int) = some ids') : ids' = ids := by
  induction ids generalizing ids' with
  | nil =>
    cases h
    rfl
  | cons id rest ih =>
    rw [List.map_cons, integers?] at h
    split at h
    · rename_i n ns hn hns
      cases h
      rw [ih hns]
      have hid : n = id := by
        unfold Json.int64? at hn
        dsimp only at hn
        split at hn <;> cases hn
        rfl
      rw [hid]
    · cases h

theorem integers?_map_int {ids : List Int} (h : ∀ id ∈ ids, id < Json.signedLimit) :
    integers? (ids.map Json.int) = some ids := by
  induction ids with
  | nil => rfl
  | cons id rest ih =>
    obtain ⟨hid, hrest⟩ := List.forall_mem_cons.mp h
    rw [List.map_cons, integers?, ih hrest, Json.int64?, if_pos hid]

/-- Ids are no names. -/
theorem names?_ofIds (ids : List Int) : names? (.ofIds ids) = none := by cases ids <;> rfl

/-- The records that a list of ids names. -/
theorem relatedOf_ids {comodel : Model} {ids : List Int} {related : Related}
    (h : (relatedOf s ⟨f.name, .within, .value (.ofIds ids)⟩ comodel).Gives t related t') : related = .ids ids ∧ t' = t := by
  have hset : setItems (ids.map Json.int) = ids.map Json.int := by
    unfold setItems
    rw [List.filter_eq_self]
    intro item hitem
    obtain ⟨id, -, rfl⟩ := List.mem_map.mp hitem
    rfl
  unfold relatedOf at h
  dsimp only at h
  rw [names?_ofIds] at h
  dsimp only [Json.ofIds] at h
  rw [hset] at h
  cases hints : integers? (ids.map Json.int) with
  | none =>
    rw [hints] at h
    cases h
  | some ids' =>
    rw [hints] at h
    cases h
    rw [integers?_ints hints]
    exact ⟨rfl, rfl⟩

/-- The condition that the id is in a list. -/
def withinIds (p : Place) (ids : List Int) : Cond :=
  Wanted.condition { params := ids.map idParam } (.column (p.column "id")) (p.column "id") true

theorem withinIds_settles (build : QueryBuilder) (hr : s.registry.Valid) (hm : s.registry.Has p.model)
    (hid : p.model.field? "id" = some { name := "id", type := .integer }) (ids : List Int) :
    Settles s build 1 ⟨"id", .within, .value (.ofIds ids)⟩ p (withinIds p ids) := by
  have hclass : classify s.registry p.model ⟨"id", .within, .value (.ofIds ids)⟩ = .ok .plain :=
    classify_own (l := ⟨"id", .within, .value (.ofIds ids)⟩) hr hm hid rfl
  exact settles_emit (reduce_of_classify (by simp) hclass (emitLeaf_yields (plainCondition_ids hid ids true s.context)))

theorem holds_withinIds {V : Type} (db : Database V) (row : Row V) (p : Place) (ids : List Int) :
    ((withinIds p ids).truth db.engine row).holds = true ↔
      ∃ id ∈ ids, db.base.equals (row ⟨p.tableAlias, "id"⟩) (db.base.bound (idParam id)) = true := by
  cases ids with
  | nil => exact iff_of_false nofun fun ⟨id, hid, _⟩ => nomatch hid
  | cons id rest =>
    refine (Database.holds_member db).trans ?_
    show (∃ v ∈ ((id :: rest).map idParam).map db.base.bound, _) ↔ _
    simp only [List.map_map, List.mem_map, Function.comp_apply]
    constructor
    · rintro ⟨_, ⟨id', hid, rfl⟩, heq⟩
      exact ⟨id', hid, heq⟩
    · rintro ⟨id', hid, heq⟩
      exact ⟨_, ⟨id', hid, rfl⟩, heq⟩

/-- A list of lines whose inverse has no column becomes false if it is empty, and else a list of their owners. -/
theorem HasLines.reduce_gives (h : HasLines s.registry p.model f target inverse) (hr : s.registry.Valid)
    (hm : s.registry.Has p.model) (hstore : inverse.store = false) {lines : List Int} {step : Step}
    (hgives : (reduce s build ⟨f.name, .within, .value (.ofIds lines)⟩ p).Gives t step t') :
    (lines = [] ∧ step = .emit (withinIds p [])) ∨
      ∃ owners, (Run.references s.backend target lines inverse.name).Gives t owners t' ∧
        step = .leaf ⟨"id", .within, .value (.ofIds owners)⟩ p := by
  unfold reduce at hgives
  rw [if_neg (by simp), h.classify_field hr hm] at hgives
  obtain ⟨kind, t₁, hkind, hreduce⟩ := Run.gives_bind.mp hgives
  cases hkind
  rw [reduceKind, reduceOne2many, h.inverse] at hreduce
  obtain ⟨back, t₂, hback, hrest⟩ := Run.gives_bind.mp hreduce
  cases hback
  obtain ⟨related, t₃, hrelated, hstep⟩ := Run.gives_bind.mp hrest
  obtain ⟨rfl, rfl⟩ := relatedOf_ids hrelated
  cases lines with
  | nil =>
    cases hstep
    exact .inl ⟨rfl, rfl⟩
  | cons line rest =>
    simp only [hstore] at hstep
    obtain ⟨owners, t₄, howners, hpure⟩ := Run.gives_bind.mp hstep
    cases hpure
    exact .inr ⟨owners, howners, rfl⟩

/-! ### Compilations that gave a condition -/

/-- The machine gave a condition for a leaf: the leaf was reduced, and the machine went on from there. -/
theorem outcome_ok {fuel : Nat} {q q' : Query} {cond : Cond}
    (h : Machine.outcome s build (fuel + 1) ⟨[⟨.leaf l, p⟩], [], q⟩ t = ((.ok cond, q'), t')) :
    ∃ step t₁, (reduce s build l p).Gives t step t₁ ∧
      Machine.outcome s build fuel (Machine.take q [] [] step) t₁ = ((.ok cond, q'), t') := by
  rw [Machine.outcome_leaf] at h
  rcases hreduce : (reduce s build l p).run t with ⟨e | step, t₁⟩
  · rw [hreduce] at h
    cases h
  · rw [hreduce] at h
    exact ⟨step, t₁, hreduce, h⟩

theorem Settles.outcome_ok {n fuel : Nat} {q q' : Query} {cond cond' : Cond} (h : Settles s build n l p cond)
    (hfuel : n ≤ fuel) (hrun : Machine.outcome s build fuel ⟨[⟨.leaf l, p⟩], [], q⟩ t = ((.ok cond', q'), t')) :
    cond' = cond ∧ q' = q := by
  obtain ⟨left, rfl⟩ := Nat.exists_eq_add_of_le' hfuel
  obtain ⟨t₁, hmoves⟩ := h [] [] q left t
  rw [hmoves, Machine.outcome_nil] at hrun
  cases hrun
  exact ⟨rfl, rfl⟩

end

/-- What the condition of a path to many records says of a row: a related record is among those that are found for the
    domain at the end of the path, or, where the inverse of the lines has no column, the record is among the owners that
    the database reads for the lines that it finds. -/
inductive SaysRelated (c : Compiler) (fuel : Nat) (p : Place) (f : Field) (target : Model) (d : Domain) (cond : Cond) : Prop
  | found {b : Branching} {found : Found} {t t' : Trace} : Branches c.registry p.model f target b →
      (c.search fuel target.name d).Gives t found t' →
      (∀ {V : Type} (db : Database V) (row : Row V), (cond.truth db.engine row).holds = true ↔
        ∃ id ∈ b.ids db (row ⟨p.tableAlias, "id"⟩), found.Has db id) →
      SaysRelated c fuel p f target d cond
  | read {inverse : Field} {lines owners : List Int} {t t' : Trace} : HasLines c.registry p.model f target inverse →
      inverse.store = false → (lineIds (c.setting c.context) target d).Gives t lines t' →
      (lines = [] ∧ owners = [] ∨ ∃ t t', (Run.references c.backend target lines inverse.name).Gives t owners t') →
      (∀ {V : Type} (db : Database V) (row : Row V), (cond.truth db.engine row).holds = true ↔
        ∃ id ∈ owners, db.base.equals (row ⟨p.tableAlias, "id"⟩) (db.base.bound (idParam id)) = true) →
      SaysRelated c fuel p f target d cond

section
variable {c : Compiler} {m : Model} {q : Query} {joins : List Join} {p : Place} {f : Field} {target : Model}

/-- The machine gave a condition for a path. -/
theorem outcome_related (hr : c.registry.Valid) (hid : c.registry.KeepsIds) (hm : c.registry.Has p.model)
    (hf : p.model.field? f.name = some f) (hstore : f.store) (hauto : f.autoJoin = false)
    (htype : f.type = .one2many ∨ f.type = .many2many) (hcomodel : c.registry.comodel f = .ok target) {rest : String}
    {op : Operator} {right : Operand} (hop : op ≠ .eqIfSet) {fuel left : Nat} (hleft : 2 ≤ left) {q' : Query} {cond : Cond}
    {t t' : Trace}
    (h : Machine.outcome (c.setting c.context) (c.queryIn fuel) (left + 1) ⟨[⟨.leaf ⟨f.name ++ "." ++ rest, op, right⟩, p⟩], [], q⟩
      t = ((.ok cond, q'), t')) :
    q' = q ∧ SaysRelated c fuel p f target (.ofLeaf rest op right) cond := by
  have hrelational : f.type.isRelational := by rcases htype with h | h <;> rw [h] <;> rfl
  have hhead : (Leaf.mk (f.name ++ "." ++ rest) op right).path.1 = f.name := by
    rw [Leaf.path_append (Text.not_mem_of_isIdentifier (hr.isIdentifier_field hm hf) (by decide))]
  -- The leaf becomes one on the field itself.
  obtain ⟨step, t₁, hreduce, hgoes⟩ := outcome_ok h
  obtain ⟨operand, htarget, rfl⟩ : ∃ operand,
      (reducePath.target (c.setting c.context) (c.queryIn fuel) p f target (.ofLeaf rest op right)).Gives t operand t₁ ∧
        step = .leaf ⟨f.name, .within, operand⟩ p := by
    unfold reduce at hreduce
    rw [if_neg hop] at hreduce
    obtain ⟨kind, t₂, hkind, hpath⟩ := Run.gives_bind.mp hreduce
    have hclass := classify_many hr hm hf hstore hauto hrelational hcomodel rest op right
    rw [show classify (c.setting c.context).registry p.model _ = _ from hclass] at hkind
    cases hkind
    rw [reduceKind, reducePath, hhead] at hpath
    obtain ⟨operand, t₃, htarget, hpure⟩ := Run.gives_bind.mp hpath
    cases hpure
    exact ⟨operand, htarget, rfl⟩
  rcases branches_or_reads hr hm hf hstore hauto htype hcomodel with ⟨b, hb⟩ | ⟨inverse, hlines, hcolumn⟩
  · obtain ⟨found, hfound, rfl⟩ := hb.target_gives (s := c.setting c.context) htarget
    obtain ⟨n, hn, hsettles⟩ := hb.settles (s := c.setting c.context) (c.queryIn fuel) hr hm (hid _ hm) found
    obtain ⟨rfl, rfl⟩ := hsettles.outcome_ok (by omega) hgoes
    exact ⟨rfl, .found hb hfound fun db row => b.holds_condition db row p f.name found⟩
  · obtain ⟨lines, hfound, rfl⟩ := hlines.target_gives (s := c.setting c.context) hcolumn htarget
    obtain ⟨k, rfl⟩ : ∃ k, left = k + 1 := ⟨left - 1, by omega⟩
    obtain ⟨step, t₂, hreduce', hgoes'⟩ := outcome_ok (s := c.setting c.context) hgoes
    rcases hlines.reduce_gives (s := c.setting c.context) hr hm hcolumn hreduce' with ⟨hnone, rfl⟩ | ⟨owners, howners, rfl⟩
    · rw [show Machine.take q [] [] (.emit (withinIds p [])) = ⟨[], [withinIds p []], q⟩ from rfl, Machine.outcome_nil]
        at hgoes'
      cases hgoes'
      exact ⟨rfl, .read hlines hcolumn hfound (.inl ⟨hnone, rfl⟩) fun db row => holds_withinIds db row p []⟩
    · have hsettles := withinIds_settles (s := c.setting c.context) (c.queryIn fuel) hr hm (hid _ hm) owners
      obtain ⟨rfl, rfl⟩ := hsettles.outcome_ok (by omega) hgoes'
      exact ⟨rfl, .read hlines hcolumn hfound (.inr ⟨_, _, howners⟩) fun db row => holds_withinIds db row p owners⟩

/-- The compilation of a path gave a condition. -/
theorem compileOn_related (hr : c.registry.Valid) (hid : c.registry.KeepsIds) (hm : c.registry.Has m)
    (hp : Delegates c.registry f.name ⟨m, q.tableAlias⟩ joins p) (hf : p.model.field? f.name = some f) (hstore : f.store)
    (hauto : f.autoJoin = false) (htype : f.type = .one2many ∨ f.type = .many2many)
    (hcomodel : c.registry.comodel f = .ok target) {rest : String} {op : Operator} {right : Operand} (hop : op ≠ .eqIfSet)
    {fuel : Nat} (hfuel : joins.length + 3 ≤ fuel) {q' : Query} {cond : Cond} {t t' : Trace}
    (h : (Compiler.compileOn (c.setting c.context) (c.queryIn fuel) fuel ⟨m, q.tableAlias⟩
      [.leaf ⟨f.name ++ "." ++ rest, op, right⟩] q).run t = ((.ok cond, q'), t')) :
    q' = joins.foldl .addJoin q ∧ SaysRelated c fuel p f target (.ofLeaf rest op right) cond := by
  have hhas : c.registry.Has p.model := hp.has (s := c.setting c.context) hm
  have hpath : (Leaf.mk (f.name ++ "." ++ rest) op right).path.1 = f.name := by
    rw [Leaf.path_append (Text.not_mem_of_isIdentifier (hr.isIdentifier_field hhas hf) (by decide))]
  have hfrom : Delegates (c.setting c.context).registry (Leaf.mk (f.name ++ "." ++ rest) op right).path.1
      ⟨m, q.tableAlias⟩ joins p := by
    rw [hpath]
    exact hp
  obtain ⟨left, hleft⟩ : ∃ left, fuel = left + 1 + joins.length := ⟨fuel - 1 - joins.length, by omega⟩
  obtain ⟨t₁, hmoves⟩ := hfrom.moves (c.queryIn fuel) hop [] [] q (left + 1) t
  rw [← hleft] at hmoves
  have hd : Domain.distributeNot [.leaf ⟨f.name ++ "." ++ rest, op, right⟩] =
      .ok [.leaf ⟨f.name ++ "." ++ rest, op, right⟩] := rfl
  unfold Compiler.compileOn at h
  rw [hd] at h
  have hrun : Machine.outcome (c.setting c.context) (c.queryIn fuel) (left + 1)
      ⟨[⟨.leaf ⟨f.name ++ "." ++ rest, op, right⟩, p⟩], [], joins.foldl .addJoin q⟩ t₁ = ((.ok cond, q'), t') :=
    hmoves.symm.trans h
  exact outcome_related hr hid hhas hf hstore hauto htype hcomodel hop (by omega) hrun

end

/-- Over an accepted registry whose models keep their ids: a path through a field with a column that relates a record to
    many others and is not joined says that a related record is among those found for the leaf at its end. The negation
    of a leaf with a negated operator says the same with the negated leaf, not that no related record is found. -/
theorem compile_negated_path (c : Compiler) (hr : c.registry.Valid) (hid : c.registry.KeepsIds) {model : String} {m : Model}
    (hm : c.registry.model model = .ok m) {q : Query} {joins : List Join} {p : Place} {f : Field} {target : Model}
    (hp : Delegates c.registry f.name ⟨m, q.tableAlias⟩ joins p) (hf : p.model.field? f.name = some f) (hstore : f.store)
    (hauto : f.autoJoin = false) (htype : f.type = .one2many ∨ f.type = .many2many)
    (hcomodel : c.registry.comodel f = .ok target) (rest : String) (right : Operand) {op op' : Operator}
    (hop : op.negate? = some op') {fuel : Nat} (hfuel : joins.length + 3 ≤ fuel) :
    let l : Leaf := ⟨f.name ++ "." ++ rest, op, right⟩
    (∀ {t q' t'}, (c.compile fuel model [.leaf l] q).run t = ((.ok (), q'), t') → ∃ cond,
      q' = (joins.foldl .addJoin q).addCondition cond ∧ SaysRelated c fuel p f target (.ofLeaf rest op right) cond) ∧
    ∀ {t q' t'}, (c.compile fuel model [.not, .leaf l] q).run t = ((.ok (), q'), t') → ∃ cond,
      q' = (joins.foldl .addJoin q).addCondition cond ∧ SaysRelated c fuel p f target (.ofLeaf rest op' right) cond := by
  intro l
  have hset : op ≠ .eqIfSet := by
    rintro rfl
    cases hop
  have hset' : op' ≠ .eqIfSet := by
    rintro rfl
    cases Operator.negate?_symm hop
  -- A domain that compiles like a leaf on the path says what the leaf says.
  have compiled : ∀ {op₁ d}, op₁ ≠ Operator.eqIfSet →
      (∀ t, (Compiler.compileOn (c.setting c.context) (c.queryIn fuel) fuel ⟨m, q.tableAlias⟩ d q).run t =
        (Compiler.compileOn (c.setting c.context) (c.queryIn fuel) fuel ⟨m, q.tableAlias⟩
          [.leaf ⟨f.name ++ "." ++ rest, op₁, right⟩] q).run t) →
      ∀ {t q' t'}, (c.compile fuel model d q).run t = ((.ok (), q'), t') → ∃ cond,
        q' = (joins.foldl .addJoin q).addCondition cond ∧ SaysRelated c fuel p f target (.ofLeaf rest op₁ right) cond := by
    intro op₁ d hop₁ hsame t q' t' hrun
    have hwith := compileWith_run (c.setting c.context) (c.queryIn fuel) hm fuel d q t
    rw [show (Compiler.compileWith (c.setting c.context) (c.queryIn fuel) fuel model d q).run t = _ from hrun, hsame]
      at hwith
    rcases hon : (Compiler.compileOn (c.setting c.context) (c.queryIn fuel) fuel ⟨m, q.tableAlias⟩
      [.leaf ⟨f.name ++ "." ++ rest, op₁, right⟩] q).run t with ⟨⟨stop | cond, q₁⟩, t₁⟩
    · rw [hon] at hwith
      cases hwith
    · rw [hon] at hwith
      cases hwith
      obtain ⟨rfl, hmeans⟩ :=
        compileOn_related hr hid (Registry.has_of_model hm) hp hf hstore hauto htype hcomodel hop₁ hfuel hon
      exact ⟨cond, rfl, hmeans⟩
  refine ⟨compiled hset fun _ => rfl, compiled hset' fun t => ?_⟩
  have hnegated : Domain.distributeNot [.not, .leaf l] = Domain.distributeNot [.leaf { l with op := op' }] := by
    have hpush : Domain.distributeNot [.not, .leaf l] = .ok (Domain.negateLeaf l ++ []) := rfl
    rw [hpush, Domain.negateLeaf, show l.op.negate? = some op' from hop]
    rfl
  unfold Compiler.compileOn
  rw [hnegated]

/-! ### Tags of tasks -/

/-- The condition that a tag has the color red, or that it has not. -/
def redCondition : Operator → Cond
  | .ne => .or (.group (.compare (.column ⟨"tag", "name"⟩) .ne (.text "red") false)) (.isNull ⟨"tag", "name"⟩)
  | op => .group (.compare (.column ⟨"tag", "name"⟩) op (.text "red") false)

theorem endpoint_red {op : Operator} (hop : op = .eq ∨ op = .ne) :
    Endpoint noteCompiler.registry noteCompiler.context tagModel ⟨"name", op, .value (.str "red")⟩ (redCondition op) where
  plain := by rcases hop with rfl | rfl <;> rfl
  op := by rcases hop with rfl | rfl <;> simp
  listed := by rcases hop with rfl | rfl <;> rintro (h | h) <;> cases h
  condition := by rcases hop with rfl | rfl <;> rfl

theorem leaves_tags :
    (Hop.mk "tags" (.many2many ⟨"task_tag", "task_id", "tag_id"⟩) tagModel).Leaves noteCompiler.registry taggedTask
      (Field.many2many "tags" "tag" ⟨"task_tag", "task_id", "tag_id"⟩) :=
  ⟨rfl, rfl, rfl, rfl, ⟨rfl, rfl⟩⟩

/-- The tags that are red, or those that are not. -/
def redTags (op : Operator) : Found := .rows (inIdOrder (matching tagModel (redCondition op)))

/-- Tasks with a tag that is red, or with one that is not. -/
def taggedRed (op : Operator) : Cond :=
  (Branching.linked ⟨"task_tag", "task_id", "tag_id"⟩).condition ⟨taggedTask, "task"⟩ "tags" (redTags op)

theorem settles_red {op : Operator} (hop : op = .eq ∨ op = .ne) :
    ∃ n ≤ 3, Settles (noteCompiler.setting noteCompiler.context) (noteCompiler.queryIn 3) n
      ⟨"tags.name", op, .value (.str "red")⟩ ⟨taggedTask, "task"⟩ (taggedRed op) := by
  have hm : noteCompiler.registry.Has taggedTask := ⟨"task", rfl⟩
  have hwithin : op ≠ .within := by rcases hop with rfl | rfl <;> nofun
  have he := endpoint_red hop
  exact leaves_tags.path_settles (s := noteCompiler.setting noteCompiler.context) (p := ⟨taggedTask, "task"⟩) valid_notes
    keepsIds_notes hm rfl he.op (he.find_yields valid_notes rfl leaves_tags.has hwithin 1)

/-- Both the leaf and its negation compile. -/
theorem compile_red (tr : Trace) :
    (∃ tr', (noteCompiler.compile 3 "task" [.leaf ⟨"tags.name", .eq, .value (.str "red")⟩] (.ofTable "task")).run tr =
      ((.ok (), (Query.ofTable "task").addCondition (taggedRed .eq)), tr')) ∧
    ∃ tr', (noteCompiler.compile 3 "task" [.not, .leaf ⟨"tags.name", .eq, .value (.str "red")⟩] (.ofTable "task")).run tr =
      ((.ok (), (Query.ofTable "task").addCondition (taggedRed .ne)), tr') := by
  have hm : noteCompiler.registry.model "task" = .ok taggedTask := rfl
  obtain ⟨n, hn, hsettles⟩ := settles_red (.inl rfl)
  obtain ⟨n', hn', hsettles'⟩ := settles_red (.inr rfl)
  exact ⟨compileWith_of_moves rfl (hsettles [] [] (.ofTable "task")) hn hm rfl tr,
    compileWith_of_moves rfl (hsettles' [] [] (.ofTable "task")) hn' hm rfl tr⟩

/-- Tasks with a tag of some color, and their negation. -/
theorem compile_negated_path_tags :
    let c := noteCompiler
    let l : Leaf := ⟨"tags.name", .eq, .value (.str "red")⟩
    let f := Field.many2many "tags" "tag" ⟨"task_tag", "task_id", "tag_id"⟩
    let p : Place := ⟨taggedTask, "task"⟩
    let q := Query.ofTable "task"
    c.registry.Valid ∧ c.registry.KeepsIds ∧ c.registry.model "task" = .ok taggedTask ∧
      Delegates c.registry f.name p [] p ∧ taggedTask.field? f.name = some f ∧ f.store ∧ f.autoJoin = false ∧
      (f.type = .one2many ∨ f.type = .many2many) ∧ c.registry.comodel f = .ok tagModel ∧
      Operator.negate? .eq = some .ne ∧ 3 ≤ 3 ∧
      (∃ q' t', (c.compile 3 "task" [.leaf l] q).run {} = ((.ok (), q'), t')) ∧
      (∃ q' t', (c.compile 3 "task" [.not, .leaf l] q).run {} = ((.ok (), q'), t')) ∧
      (∀ {t q' t'}, (c.compile 3 "task" [.leaf l] q).run t = ((.ok (), q'), t') → ∃ cond,
        q' = q.addCondition cond ∧ SaysRelated c 3 p f tagModel (.ofLeaf "name" .eq (.value (.str "red"))) cond) ∧
      ∀ {t q' t'}, (c.compile 3 "task" [.not, .leaf l] q).run t = ((.ok (), q'), t') → ∃ cond,
        q' = q.addCondition cond ∧ SaysRelated c 3 p f tagModel (.ofLeaf "name" .ne (.value (.str "red"))) cond := by
  intro c l f p q
  have hm : c.registry.model "task" = .ok taggedTask := rfl
  have hdelegates : Delegates c.registry f.name p [] p := .here _
  obtain ⟨⟨t₁, hrun⟩, t₂, hrun'⟩ := compile_red {}
  have hmeans := compile_negated_path c valid_notes keepsIds_notes hm (q := q) hdelegates rfl rfl rfl (.inr rfl) rfl
    "name" (.value (.str "red")) (show Operator.negate? .eq = some .ne from rfl) (Nat.le_refl 3)
  exact ⟨valid_notes, keepsIds_notes, hm, hdelegates, rfl, rfl, rfl, .inr rfl, rfl, rfl, Nat.le_refl 3,
    ⟨_, t₁, hrun⟩, ⟨_, t₂, hrun'⟩, hmeans.1, hmeans.2⟩

/-- A task with a red and a blue tag, and a task without tags. -/
def twoTasks : Database Datum where
  base := Datum.engine
  records
    | "task" => [.ofList [("id", .number 1)], .ofList [("id", .number 2)]]
    | "tag" => [.ofList [("id", .number 1), ("name", .text "red")], .ofList [("id", .number 2), ("name", .text "blue")]]
    | "task_tag" =>
      [.ofList [("task_id", .number 1), ("tag_id", .number 1)], .ofList [("task_id", .number 1), ("tag_id", .number 2)]]
    | _ => []

theorem twoTasks_has {op : Operator} {id : Option Datum} {tag : Record Datum} (htag : tag ∈ twoTasks.records "tag")
    (hred : ((redCondition op).truth twoTasks.engine (tag.under "tag")).holds = true)
    (hid : twoTasks.base.equals id (tag "id") = true) : (redTags op).Has twoTasks id :=
  ⟨tag "id", (foundBy_ofTable "tag" (redCondition op) _).mpr ⟨tag, htag, hred, rfl⟩, hid⟩

/-- A task with a red and a blue tag is found by the negation as well, and a task without tags by neither. -/
theorem mixed_task_found_twice :
    let c := noteCompiler
    let l : Leaf := ⟨"tags.name", .eq, .value (.str "red")⟩
    let q := Query.ofTable "task"
    let mixed := Record.ofList [("id", .number 1)]
    let bare := Record.ofList [("id", .number 2)]
    c.registry.Valid ∧ c.registry.KeepsIds ∧ c.context.activeTest = false ∧ mixed ∈ twoTasks.records "task" ∧
      bare ∈ twoTasks.records "task" ∧ ∃ cond cond',
        (∀ tr, (∃ tr', (c.compile 3 "task" [.leaf l] q).run tr = ((.ok (), q.addCondition cond), tr')) ∧
          ∃ tr', (c.compile 3 "task" [.not, .leaf l] q).run tr = ((.ok (), q.addCondition cond'), tr')) ∧
        (cond.truth twoTasks.engine (mixed.under "task")).holds = true ∧
        (cond'.truth twoTasks.engine (mixed.under "task")).holds = true ∧
        (cond.truth twoTasks.engine (bare.under "task")).holds = false ∧
        (cond'.truth twoTasks.engine (bare.under "task")).holds = false := by
  intro c l q mixed bare
  have htask : twoTasks.records "task" = [mixed, bare] := rfl
  have hids : (Branching.linked ⟨"task_tag", "task_id", "tag_id"⟩).ids twoTasks (some (.number 1)) =
      [some (.number 1), some (.number 2)] := rfl
  have hnone : (Branching.linked ⟨"task_tag", "task_id", "tag_id"⟩).ids twoTasks (some (.number 2)) = [] := rfl
  have hmixed : ∀ op, (∃ id ∈ [some (Datum.number 1), some (.number 2)], (redTags op).Has twoTasks id) →
      ((taggedRed op).truth twoTasks.engine (mixed.under "task")).holds = true := fun op hhas =>
    (Branching.holds_condition twoTasks (mixed.under "task") _ ⟨taggedTask, "task"⟩ "tags" (redTags op)).mpr (hids ▸ hhas)
  have hbare : ∀ op, ((taggedRed op).truth twoTasks.engine (bare.under "task")).holds = false := by
    intro op
    rw [Bool.eq_false_iff]
    intro hholds
    obtain ⟨id, hid, -⟩ :=
      (Branching.holds_condition twoTasks (bare.under "task") _ ⟨taggedTask, "task"⟩ "tags" (redTags op)).mp hholds
    exact nomatch (hnone ▸ hid : id ∈ [])
  refine ⟨valid_notes, keepsIds_notes, rfl, ?_, ?_, taggedRed .eq, taggedRed .ne, compile_red, ?_, ?_, hbare .eq, hbare .ne⟩
  · rw [htask]
    exact List.mem_cons_self
  · rw [htask]
    exact List.mem_cons_of_mem _ List.mem_cons_self
  · exact hmixed .eq ⟨some (.number 1), List.mem_cons_self, twoTasks_has List.mem_cons_self rfl rfl⟩
  · exact hmixed .ne ⟨some (.number 2), List.mem_cons_of_mem _ List.mem_cons_self,
      twoTasks_has (List.mem_cons_of_mem _ List.mem_cons_self) rfl rfl⟩

end RecordFilter.Compile
