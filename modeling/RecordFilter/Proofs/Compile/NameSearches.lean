import RecordFilter.Proofs.Compile.Calls
import RecordFilter.Proofs.Compile.Complements
import RecordFilter.Proofs.Compile.Memberships

/-! Leaves that give records by name. Of the field of any kind the names are looked up first, by one search for the
    records whose name compares with them; what is done with the ids that it finds asks for references at most. The
    operator of that search fits the names or it does not: on a reference all operators but the ordering ones are turned
    into those for a list or for a single name, on the other fields none is. -/

namespace RecordFilter

namespace Operator

/-- Whether texts compare by the operator with names: membership is asked of a list, a pattern is made of anything, and
    all other comparisons are with a single name. -/
def takesNames (isList : Bool) (op : Operator) : Bool :=
  !op.isHierarchy && (op.isContains || isList == op.isMembership)

end Operator

namespace Run
variable {α : Type} {b : Backend} {m : Model} {name : Json} {op : Operator} {options : SearchOptions}
  {k : List Int → Run α} {t : Trace}

theorem run_nameSearch (b : Backend) (m : Model) (name : Json) (op : Operator) (options : SearchOptions) (t : Trace) :
    (nameSearch b m name op options).run t = (Run.ofExcept (b.findByName t.calls m name op options)).run
      { t with calls := t.calls ++ [b.nameCall m name op options] } := rfl

theorem gives_nameSearch {ids : List Int} (h : b.findByName t.calls m name op options = .ok ids) :
    (nameSearch b m name op options).Gives t ids { t with calls := t.calls ++ [b.nameCall m name op options] } := by
  rw [Gives, run_nameSearch, h]
  rfl

theorem stops_nameSearch {e : Error} (h : b.findByName t.calls m name op options = .error e) :
    (nameSearch b m name op options).Stops t (.error e)
      { t with calls := t.calls ++ [b.nameCall m name op options] } := by
  rw [Stops, run_nameSearch, h]
  rfl

/-- The search is the first call, whatever it answers. -/
theorem calls_nameSearch_bind {P : Call → Prop} (hk : ∀ ids, (k ids).Makes P) (t : Trace) :
    ∃ calls, ((nameSearch b m name op options >>= k).run t).2.calls =
        t.calls ++ b.nameCall m name op options :: calls ∧
      ∀ call ∈ calls, P call := by
  rw [run_bind, run_nameSearch]
  cases b.findByName t.calls m name op options with
  | error e => exact ⟨[], rfl, nofun⟩
  | ok ids =>
    obtain ⟨calls, hcalls, hall⟩ := hk ids { t with calls := t.calls ++ [b.nameCall m name op options] }
    exact ⟨calls, hcalls.trans (List.append_assoc _ _ _), hall⟩

end Run

namespace Compile
open Sql

/-! ### Names -/

theorem texts?_eq_some {items : List Json} {names : List String} (h : texts? items = some names) :
    items = names.map .str := by
  induction items generalizing names with
  | nil =>
    cases h
    rfl
  | cons item rest ih =>
    cases item with
    | str s =>
      obtain ⟨others, hothers, rfl⟩ := Option.map_eq_some_iff.mp h
      rw [ih hothers, List.map_cons]
    | _ => cases h

/-- Names are a text or a list of texts. -/
theorem names?_cases {v : Json} (h : (names? v).isSome) :
    (∃ s, v = .str s) ∨ ∃ names : List String, v = .arr (names.map .str) := by
  obtain ⟨names, hnames⟩ := Option.isSome_iff_exists.mp h
  unfold names? at hnames
  split at hnames
  · exact .inl ⟨_, rfl⟩
  · exact .inr ⟨names, by rw [texts?_eq_some hnames]⟩
  · cases hnames

theorem isUnset_of_names {v : Json} (h : (names? v).isSome) : v.isUnset = false := by
  rcases names?_cases h with ⟨s, rfl⟩ | ⟨names, rfl⟩ <;> rfl

/-- A comparison is made with all that can be bound, and a pattern is made of anything. -/
theorem comparison_succeeds {l : Leaf} {column : Column} {v : Json} {unaccent : Bool} :
    (∃ c, comparison l column v unaccent = .ok c) ↔ l.op.isContains ∨ (Param.ofJson? v).isSome := by
  unfold comparison
  dsimp only
  cases hparam : (if l.op.isContains then some (containsPattern v) else Param.ofJson? v) with
  | none =>
    cases hcontains : l.op.isContains
    · simp_all
    · simp [hcontains] at hparam
  | some param =>
    refine iff_of_true ?_ ?_
    · dsimp only
      split <;> exact ⟨_, rfl⟩
    · split at hparam
      · exact .inl ‹_›
      · exact .inr (hparam ▸ rfl)

/-- A condition on names is made just where the operator fits them. -/
theorem plainCondition_names {p : Place} {left : String} {f : Field} (hf : p.model.field? left = some f) {v : Json}
    (hv : (names? v).isSome) (op : Operator) (ctx : Context) :
    (∃ c, plainCondition ⟨left, op, .value v⟩ p ctx = .ok c) ↔ op.takesNames v.arr?.isSome := by
  rcases names?_cases hv with ⟨s, rfl⟩ | ⟨names, rfl⟩
  · have hbound : Param.ofJson? (.str s) = some (.text s) := rfl
    cases op <;> simp [plainCondition, hf, literalLeaf, inValues, equality, Json.isUnset, Json.arr?,
      comparison_succeeds, hbound, Operator.takesNames, Operator.isHierarchy, Operator.isContains, Operator.isMembership]
  · have hscalar : ∀ item ∈ names.map Json.str, item.isScalar := by
      intro item hitem
      obtain ⟨name, -, rfl⟩ := List.mem_map.mp hitem
      rfl
    obtain ⟨w, hw, -, -⟩ := Wanted.ofItems?_gathers (f.type = .boolean) hscalar
    have hlist : ∀ items, Param.ofJson? (.arr items) = none := fun _ => rfl
    cases op <;> simp [plainCondition, hf, literalLeaf, inValues, hw, equality, Json.isUnset, Json.arr?,
      comparison_succeeds, hlist, Operator.takesNames, Operator.isHierarchy, Operator.isContains, Operator.isMembership]

/-! ### The search for names -/

variable {s : Setting} {l : Leaf} {p : Place} {f : Field} {comodel : Model} {v : Json}

/-- The operator that names are searched with for a leaf on a field of some type. -/
def searchedOperator (type : FieldType) (isList : Bool) (op : Operator) : Operator :=
  if type = .many2one then nameOperator isList op else op.positive

/-- Through a reference records out of use are found too; elsewhere the context decides. -/
def searchedOptions (type : FieldType) (ctx : Context) : SearchOptions :=
  { activeTest := type ≠ .many2one && ctx.activeTest }

/-- A call that reads references of the records of a model. -/
def ReadsReferences (m : Model) (call : Call) : Prop := ∃ ids field, call = .references m.name ids field

/-- A leaf on a reference with names becomes one with the ids that are found. -/
theorem reduceMany2one_names (build : QueryBuilder) (hop : l.op.isHierarchy = false) (hright : l.right = .value v)
    (hv : (names? v).isSome) (head : String) :
    reduceMany2one s build l head p comodel = (do
      let ids ← Run.nameSearch s.backend comodel v (nameOperator v.arr?.isSome l.op) { activeTest := false }
      return Step.leaf ⟨l.left, .within, .value (.arr (ids.map Json.int ++
        if (nameOperator v.arr?.isSome l.op).isNegative then [.bool false] else []))⟩ p) := by
  simp only [reduceMany2one, direction_of_not_isHierarchy hop, hright, hv, if_true, nameLeaf, bind_assoc, pure_bind]

theorem relatedOf_names (hright : l.right = .value v) (hv : (names? v).isSome) :
    relatedOf s l comodel = (do
      return .ids (← Run.nameSearch s.backend comodel v l.op.positive { activeTest := s.context.activeTest })) := by
  obtain ⟨names, hnames⟩ := Option.isSome_iff_exists.mp hv
  simp only [relatedOf, hright, hnames, Operator.positive]

/-- A leaf that compares a relational field of a model with names of records that it refers to. -/
structure GivesNames (r : Registry) (m : Model) (l : Leaf) (f : Field) (comodel : Model) (v : Json) : Prop where
  field : m.field? l.left = some f
  store : f.store
  relational : f.type.isRelational
  comodel : r.comodel f = .ok comodel
  value : l.right = .value v
  names : (names? v).isSome
  not_hierarchy : l.op.isHierarchy = false
  ne_eqIfSet : l.op ≠ .eqIfSet

namespace GivesNames

/-- The leaf is handled by the type of its field. -/
theorem reduce_eq (h : GivesNames s.registry p.model l f comodel v) (build : QueryBuilder) (hr : s.registry.Valid)
    (hp : s.registry.Has p.model) :
    reduce s build l p = match f.type with
      | .one2many => reduceOne2many s build l p f comodel
      | .many2many => reduceMany2many s build l p f comodel
      | _ => reduceMany2one s build l l.path.1 p comodel := by
  have hkind := classify_own hr hp h.field h.not_hierarchy
  have hrelational := h.relational
  unfold reduce
  rw [if_neg h.ne_eqIfSet, hkind, classifyField, h.store, h.comodel]
  cases htype : f.type <;> first | rfl | (rw [htype] at hrelational; cases hrelational)

/-- The search for the names comes first, and then references are read at most. -/
theorem asks (h : GivesNames s.registry p.model l f comodel v) (build : QueryBuilder) (hr : s.registry.Valid)
    (hp : s.registry.Has p.model) :
    ∃ k : List Int → Run Step, (∀ ids, (k ids).Makes (ReadsReferences comodel)) ∧
      reduce s build l p = Run.nameSearch s.backend comodel v (searchedOperator f.type v.arr?.isSome l.op)
        (searchedOptions f.type s.context) >>= k := by
  have hrelational := h.relational
  have hdir := direction_of_not_isHierarchy h.not_hierarchy
  have hset : l.right.isUnset = false := by
    rw [h.value]
    exact isUnset_of_names h.names
  rw [h.reduce_eq build hr hp]
  cases htype : f.type with
  | many2one =>
    rw [reduceMany2one_names build h.not_hierarchy h.value h.names]
    exact ⟨_, fun ids => .pure _, rfl⟩
  | many2many =>
    obtain ⟨relation, hrelation⟩ := hr.relation_eq_some hp h.field htype h.store
    simp only [reduceMany2many, hrelation, hdir, hset, relatedOf_names h.value h.names, bind_assoc, pure_bind]
    exact ⟨_, fun ids => .pure _, rfl⟩
  | one2many =>
    obtain ⟨-, -, inverse, hinverse⟩ := hr.inverse_eq_ok hp h.field htype h.comodel
    simp only [reduceOne2many, hinverse, Run.ofExcept, hdir, hset, relatedOf_names h.value h.names, bind_assoc, pure_bind]
    refine ⟨_, fun ids => ?_, rfl⟩
    cases ids with
    | nil => exact .pure _
    | cons id rest =>
      cases inverse.store with
      | true => exact .pure _
      | false => exact .bind (.references ⟨_, _, rfl⟩) fun owners => .pure _
  | _ =>
    rw [htype] at hrelational
    cases hrelational

end GivesNames

/-- On a reference the operators of equality and membership are turned into those that fit, and an ordering one is
    turned into membership even where there is no list. -/
theorem takesNames_reference {isList : Bool} {op : Operator} (hop : op.isOrdering ∨ op.isEquality ∨ op.isMembership) :
    (searchedOperator .many2one isList op).takesNames isList ↔ isList ∨ op.isOrdering = false := by
  cases op <;> cases isList <;> first | decide | simp [Operator.isOrdering, Operator.isEquality, Operator.isMembership] at hop

/-- On the other fields the operator stays as it is, but for its sign. -/
theorem takesNames_many {type : FieldType} (htype : type ≠ .many2one) {isList : Bool} {op : Operator}
    (hop : op.isEquality ∨ op.isMembership) :
    (searchedOperator type isList op).takesNames isList ↔ isList = op.isMembership := by
  rw [searchedOperator, if_neg htype]
  cases op <;> cases isList <;> first | decide | simp [Operator.isEquality, Operator.isMembership] at hop

/-- Over an accepted registry, a leaf that compares a relational field with names looks them up among the records of the
    comodel, and asks for nothing else but references; where the database rejects that search, so is the leaf. A database
    that does not look names up by itself is searched for the records whose name compares with them. On a reference that
    domain has a condition whenever names are listed, and for a single name unless the leaf asks for an order. On the
    other fields it has one just where the operator of the leaf is for lists and there is a list, or neither. -/
theorem nameSearch_accepted (build : QueryBuilder) (hr : s.registry.Valid) (hp : s.registry.Has p.model)
    (h : GivesNames s.registry p.model l f comodel v) :
    let op := searchedOperator f.type v.arr?.isSome l.op
    let d := Domain.ofLeaf comodel.recName op (.value v)
    let options := searchedOptions f.type s.context
    (∀ t, ∃ calls, ((reduce s build l p).run t).2.calls = t.calls ++ s.backend.nameCall comodel v op options :: calls ∧
      ∀ call ∈ calls, ReadsReferences comodel call) ∧
    (∀ t e, s.backend.findByName t.calls comodel v op options = .error e →
      ∃ t', (reduce s build l p).Stops t (.error e) t') ∧
    (s.backend.nameSearch = none → s.backend.nameCall comodel v op options = .search comodel.name d options ∧
      ∀ history, s.backend.findByName history comodel v op options = s.backend.search history comodel d options) ∧
    ∀ recField, comodel.field? comodel.recName = some recField → ∀ tableAlias ctx,
      (f.type = .many2one → l.op.isOrdering ∨ l.op.isEquality ∨ l.op.isMembership →
        ((∃ c, plainCondition ⟨comodel.recName, op, .value v⟩ ⟨comodel, tableAlias⟩ ctx = .ok c) ↔
          v.arr?.isSome ∨ l.op.isOrdering = false)) ∧
      (f.type ≠ .many2one → l.op.isEquality ∨ l.op.isMembership →
        ((∃ c, plainCondition ⟨comodel.recName, op, .value v⟩ ⟨comodel, tableAlias⟩ ctx = .ok c) ↔
          v.arr?.isSome = l.op.isMembership)) := by
  intro op d options
  obtain ⟨k, hk, hreduce⟩ := h.asks build hr hp
  have hsearch : reduce s build l p = Run.nameSearch s.backend comodel v op options >>= k := hreduce
  refine ⟨fun t => ?_, fun t e he => ?_, fun hnone => ?_, fun recField hrec tableAlias ctx => ?_⟩
  · rw [hsearch]
    exact Run.calls_nameSearch_bind hk t
  · rw [hsearch]
    exact ⟨_, Run.stops_bind.mpr (.inl (Run.stops_nameSearch he))⟩
  · exact ⟨Backend.nameCall_of_none hnone, Backend.findByName_of_none hnone⟩
  · have haccepted := plainCondition_names (p := ⟨comodel, tableAlias⟩) hrec h.names op ctx
    refine ⟨fun htype hop => haccepted.trans ?_, fun htype hop => haccepted.trans (takesNames_many htype hop)⟩
    show (searchedOperator f.type _ _).takesNames _ ↔ _
    rw [htype]
    exact takesNames_reference hop

/-! ### Clerks -/

/-- A clerk has a name, a manager and friends. -/
def clerkModel : Model :=
  (((Model.ofTable "clerk" "clerk").withField { name := "name", type := .char }).withField
    (Field.many2one "manager" "clerk")).withField
    (Field.many2many "friends" "clerk" ⟨"clerk_friend", "clerk_id", "friend_id"⟩)

/-- A database that finds the first clerk by every leaf that has a condition, and rejects the other leaves. -/
def clerkBackend : Backend where
  search
    | _, m, [.leaf l], _ => (plainCondition l ⟨m, m.table⟩ taskCompiler.context).map fun _ => [1]
    | _, _, _, _ => .ok []
  references _ _ _ _ := .ok []
  parentPaths _ _ _ := .ok []

/-- A compiler for clerks. -/
def clerkCompiler : Compiler where
  registry := { models := Keyed.empty.insert "clerk" clerkModel }
  backend := clerkBackend
  context := taskCompiler.context

theorem valid_clerks : clerkCompiler.registry.Valid := ⟨.register (m := clerkModel) .empty rfl, rfl⟩

/-- Friends that are listed by name are looked up by `in`. -/
theorem nameSearch_accepted_friends :
    let names : Json := .arr [.str "Ada", .str "Bob"]
    let friends := Field.many2many "friends" "clerk" ⟨"clerk_friend", "clerk_id", "friend_id"⟩
    let l : Leaf := ⟨"friends", .notIn, .value names⟩
    let s := clerkCompiler.setting clerkCompiler.context
    s.registry.Valid ∧ s.registry.Has clerkModel ∧ GivesNames s.registry clerkModel l friends clerkModel names ∧
      (∃ calls, ((reduce s (clerkCompiler.queryIn 1) l ⟨clerkModel, "clerk"⟩).run {}).2.calls =
        .search "clerk" [.leaf ⟨"name", .within, .value names⟩] { activeTest := false } :: calls) ∧
      ∃ c, plainCondition ⟨"name", .within, .value names⟩ ⟨clerkModel, "clerk"⟩ s.context = .ok c := by
  intro names friends l s
  have hhas : s.registry.Has clerkModel := ⟨"clerk", rfl⟩
  have h : GivesNames s.registry clerkModel l friends clerkModel names := ⟨rfl, rfl, rfl, rfl, rfl, rfl, rfl, nofun⟩
  obtain ⟨hcalls, -, -, haccepted⟩ :=
    nameSearch_accepted (p := ⟨clerkModel, "clerk"⟩) (clerkCompiler.queryIn 1) valid_clerks hhas h
  obtain ⟨calls, hcalls, -⟩ := hcalls {}
  have hname : clerkModel.field? clerkModel.recName = some { name := "name", type := .char } := rfl
  exact ⟨valid_clerks, hhas, h, ⟨calls, hcalls⟩, ((haccepted _ hname "clerk" s.context).2 nofun (.inr rfl)).mpr rfl⟩

/-- Clerks whose manager comes before Ada are looked up by `in` with a single name, and clerks whose friends equal a list
    by `=` with that list. No condition is made of either, so the database rejects both. -/
theorem names_rejected :
    let names : Json := .arr [.str "Ada", .str "Bob"]
    let byName : Operator → Json → Leaf := fun op v => ⟨"name", op, .value v⟩
    let compiled := fun l => (clerkCompiler.compile 2 "clerk" [.leaf l] (.ofTable "clerk")).run {}
    clerkCompiler.registry.Valid ∧ clerkModel.field? clerkModel.recName = some { name := "name", type := .char } ∧
      (¬∃ c, plainCondition (byName .within (.str "Ada")) ⟨clerkModel, "clerk"⟩ clerkCompiler.context = .ok c) ∧
      (¬∃ c, plainCondition (byName .eq names) ⟨clerkModel, "clerk"⟩ clerkCompiler.context = .ok c) ∧
      (∃ e, (compiled ⟨"manager", .lt, .value (.str "Ada")⟩).1.1 = .error (.error e) ∧
        (compiled ⟨"manager", .lt, .value (.str "Ada")⟩).2.calls =
          [.search "clerk" [.leaf (byName .within (.str "Ada"))] { activeTest := false }]) ∧
      ∃ e, (compiled ⟨"friends", .eq, .value names⟩).1.1 = .error (.error e) ∧
        (compiled ⟨"friends", .eq, .value names⟩).2.calls =
          [.search "clerk" [.leaf (byName .eq names)] { activeTest := false }] := by
  refine ⟨valid_clerks, rfl, ?_, ?_, ⟨.invalidLeaf "('name', 'in', \"Ada\")" (.needsList .within), ?_, rfl⟩,
    ⟨.invalidLeaf "('name', '=', [\"Ada\",\"Bob\"])" (.needsScalar .eq), ?_, rfl⟩⟩
  · rintro ⟨c, hc⟩
    cases hc
  · rintro ⟨c, hc⟩
    cases hc
  · rfl
  · rfl

end Compile
end RecordFilter
