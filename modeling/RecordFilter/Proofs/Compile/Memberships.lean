import RecordFilter.Proofs.Compile.PlainLeaves
import RecordFilter.Proofs.Compile.Recursion
import RecordFilter.Proofs.Sql.Database
import RecordFilter.Proofs.Sql.Fragments

/-! Lists of values on a column. A list asks for what its items ask for: null and `false` ask for the rows where the
    column is null, all else for the rows with the value, and on a boolean column `false` asks for both. `in` finds the
    rows that are asked for, and `not in` finds all the others, whether the column is null on them or not. Null is never
    a bound value. -/

namespace RecordFilter

/-- An item of a list asks for itself as a value, unless it is a way to write "no value". On a boolean column `false` does
    both. -/
def Json.AsksForItself (isBoolean : Bool) (v : Json) : Prop := v.isUnset = false ∨ isBoolean = true ∧ v = .bool false

namespace Compile
open Sql

variable {w w' : Wanted} {isBoolean : Bool} {items : List Json} {v : Json} {p : Param}

/-! ### Gathering items -/

theorem hasBool_iff {b : Bool} {ps : List Param} : hasBool b ps = true ↔ .bool b ∈ ps := by
  induction ps with
  | nil => simp [hasBool]
  | cons p rest ih =>
    cases p with
    | bool c => rw [hasBool, Bool.or_eq_true, ih, List.mem_cons, beq_iff_eq, Param.bool.injEq, eq_comm]
    | _ => simp [hasBool, ih]

namespace Wanted

theorem mem_add {q : Param} : p ∈ (w.add q).params ↔ p ∈ w.params ∨ p = q := by
  simp [add]

/-- A boolean is there once it is added, also if it has been there before. -/
theorem mem_addBool {b : Bool} : p ∈ (w.addBool b).params ↔ p ∈ w.params ∨ p = .bool b := by
  unfold addBool
  split
  · rename_i hhas
    refine ⟨.inl, ?_⟩
    rintro (hp | rfl)
    · exact hp
    · exact hasBool_iff.mp hhas
  · exact mem_add

theorem unset_addBool (w : Wanted) (b : Bool) : (w.addBool b).unset = w.unset := by
  unfold addBool
  split <;> rfl

/-- What an item adds: its value if it asks for itself, and the unset field if it is a way to write it. -/
structure Adds (isBoolean : Bool) (v : Json) (w w' : Wanted) : Prop where
  params : ∀ p, p ∈ w'.params ↔ p ∈ w.params ∨ v.AsksForItself isBoolean ∧ Param.ofJson? v = some p
  unset : w'.unset = true ↔ w.unset = true ∨ v.isUnset = true

theorem adds_value {q : Param} (hset : v.isUnset = false) (hq : Param.ofJson? v = some q) :
    Adds isBoolean v w (w.add q) where
  params p := by
    have hasks : v.AsksForItself isBoolean := .inl hset
    rw [mem_add, hq, and_iff_right hasks, Option.some.injEq, eq_comm]
  unset := by simp [add, hset]

theorem adds_bool {b : Bool} (h : isBoolean = true ∨ b = true) {w' : Wanted}
    (hunset : w'.unset = true ↔ w.unset = true ∨ b = false) (hparams : w'.params = w.params) :
    Adds isBoolean (.bool b) w (w'.addBool b) where
  params p := by
    have hasks : (Json.bool b).AsksForItself isBoolean := by
      cases b
      · exact .inr ⟨h.resolve_right nofun, rfl⟩
      · exact .inl rfl
    rw [mem_addBool, hparams, Param.ofJson?, and_iff_right hasks, Option.some.injEq, eq_comm (a := p)]
  unset := by
    rw [unset_addBool, hunset]
    simp [Json.isUnset]

theorem adds_unset (hunset : v.isUnset = true) (hasks : ¬v.AsksForItself isBoolean) :
    Adds isBoolean v w w.addUnset where
  params p := by simp [addUnset, hasks]
  unset := by simp [addUnset, hunset]

theorem addItem?_adds (h : w.addItem? isBoolean v = some w') : Adds isBoolean v w w' := by
  cases v with
  | null =>
    cases h
    exact adds_unset rfl (by simp [Json.AsksForItself, Json.isUnset])
  | bool b =>
    cases isBoolean <;> cases b <;> cases h
    · exact adds_unset rfl (by simp [Json.AsksForItself, Json.isUnset])
    · exact adds_value rfl rfl
    · exact adds_bool (.inl rfl) (by simp [addUnset]) rfl
    · exact adds_bool (.inl rfl) (by simp) rfl
  | arr items => cases h
  | obj members => cases h
  | int n =>
    cases h
    exact adds_value rfl rfl
  | float x =>
    cases h
    exact adds_value rfl rfl
  | str s =>
    cases h
    exact adds_value rfl rfl

/-- What is wanted is what some items ask for. -/
structure Gathers (isBoolean : Bool) (items : List Json) (w : Wanted) : Prop where
  params : ∀ p, p ∈ w.params ↔ ∃ v ∈ items, v.AsksForItself isBoolean ∧ Param.ofJson? v = some p
  unset : w.unset = true ↔ ∃ v ∈ items, v.isUnset = true

namespace Gathers

theorem nothing : Gathers isBoolean [] {} where
  params p := by simp
  unset := by simp

theorem addItem? (h : Gathers isBoolean items w) (hw' : w.addItem? isBoolean v = some w') :
    Gathers isBoolean (items ++ [v]) w' := by
  have hadds := addItem?_adds hw'
  refine ⟨fun p => ?_, ?_⟩
  · simp only [hadds.params, h.params, List.mem_append, List.mem_singleton, or_and_right, exists_or, exists_eq_left]
  · simp only [hadds.unset, h.unset, List.mem_append, List.mem_singleton, or_and_right, exists_or, exists_eq_left]

theorem addItems? {rest : List Json} (h : Gathers isBoolean items w) (hw' : w.addItems? isBoolean rest = some w') :
    Gathers isBoolean (items ++ rest) w' := by
  induction rest generalizing items w with
  | nil =>
    cases hw'
    rwa [List.append_nil]
  | cons v rest ih =>
    rw [Wanted.addItems?] at hw'
    split at hw'
    · cases hw'
    · rename_i next hnext
      have hgathers := ih (h.addItem? hnext) hw'
      rwa [List.append_assoc] at hgathers

end Gathers

/-- A list of scalars asks for what its items ask for, and null is bound for none of them. -/
theorem ofItems?_gathers (isBoolean : Bool) (hitems : ∀ v ∈ items, v.isScalar) :
    ∃ w, ofItems? isBoolean items = some w ∧ w.Known ∧ Gathers isBoolean items w := by
  have hnone : Known {} := nofun
  obtain ⟨w, hw, hknown⟩ := hnone.addItems? isBoolean hitems
  exact ⟨w, hw, hknown, Gathers.nothing.addItems? hw⟩

/-! ### What is found -/

variable {V : Type} {e : Engine V} {row : Row V} {column : Column}

/-- If some value is wanted, what is compared with it binds its own values before the wanted ones. -/
theorem params_condition_of_left (w : Wanted) (left : Expr) (column : Column) (positive : Bool) :
    (w.condition left column positive).fragment.params =
      if w.params = [] then [] else left.fragment.params ++ w.params := by
  obtain ⟨params, unset⟩ := w
  cases params <;> cases positive <;> cases unset <;>
    simp [condition, Cond.fragment, Values.fragment, Fragment.and, Fragment.or, Fragment.join, Fragment.literal]

/-- The bound values are the wanted ones, whatever the form of the condition. -/
theorem params_condition (w : Wanted) (column : Column) (positive : Bool) :
    (w.condition (.column column) column positive).fragment.params = w.params := by
  rw [params_condition_of_left]
  split
  · rename_i hnone
    exact hnone.symm
  · rfl

/-- A row is found if its value equals a wanted one, or if it has none and the unset field is wanted. -/
theorem Known.holds_condition (h : w.Known) :
    ((w.condition (.column column) column true).truth e row).holds = true ↔
      match row column with
      | some a => ∃ p ∈ w.params, e.equal a (e.value p) = true
      | none => w.unset = true := by
  obtain ⟨params, unset⟩ := w
  have hmember : ∀ a, (e.member (some a) (params.map e.bound)).holds = true ↔
      ∃ p ∈ params, e.equal a (e.value p) = true := by
    intro a
    have hequals : ∀ p ∈ params, e.equals (some a) (e.bound p) = e.equal a (e.value p) := by
      intro p hp
      rw [bound_of_ne_null (h p hp), Engine.equals, Engine.compare_some, Truth.holds_ofBool]
      rfl
    rw [e.holds_member]
    constructor
    · rintro ⟨_, hb, heq⟩
      obtain ⟨p, hp, rfl⟩ := List.mem_map.mp hb
      exact ⟨p, hp, hequals p hp ▸ heq⟩
    · rintro ⟨p, hp, heq⟩
      exact ⟨e.bound p, List.mem_map_of_mem hp, (hequals p hp).trans heq⟩
  cases hrow : row column with
  | some a =>
    dsimp only
    rw [← hmember a]
    cases params with
    | nil => cases unset <;> simp [condition, Cond.truth, hrow, Engine.member, Truth.ofBool]
    | cons p rest => cases unset <;> simp [condition, Cond.truth, Expr.value, Values.members, hrow]
  | none =>
    cases params with
    | nil => cases unset <;> simp [condition, Cond.truth, hrow]
    | cons p rest =>
      -- Null is not known to be in a list with something in it.
      have hnull : e.member none ((p :: rest).map e.bound) = .unknown := e.member_none (List.cons_ne_nil _ _)
      rw [List.map_cons] at hnull
      cases unset <;> simp [condition, Cond.truth, Expr.value, Values.members, hrow, hnull]

end Wanted

/-! ### Leaves -/

/-- The leaves of a list of scalars part the rows. `in` finds those with a value that equals an item that asks for
    itself, and if an item is a way to write "no value", those where the column is null. `not in` finds the others. Null
    is bound for neither. -/
theorem list_parts_rows {p : Place} {left : String} {f : Field} (hf : p.model.field? left = some f)
    (hitems : ∀ v ∈ items, v.isScalar) (ctx : Context) :
    ∃ found rest,
      plainCondition ⟨left, .within, .value (.arr items)⟩ p ctx = .ok found ∧
      plainCondition ⟨left, .notIn, .value (.arr items)⟩ p ctx = .ok rest ∧
      .null ∉ found.fragment.params ∧ .null ∉ rest.fragment.params ∧
      ∀ {V : Type} (e : Engine V) (row : Row V),
        ((found.truth e row).holds = true ↔
          match row (p.column left) with
          | some a => ∃ v ∈ items, v.AsksForItself (f.type = .boolean) ∧
              ∃ param, Param.ofJson? v = some param ∧ e.equal a (e.value param) = true
          | none => ∃ v ∈ items, v.isUnset = true) ∧
        (rest.truth e row).holds = !(found.truth e row).holds := by
  obtain ⟨w, hw, hknown, hgathers⟩ := Wanted.ofItems?_gathers (f.type = .boolean) hitems
  have hnull : Param.null ∉ w.params := fun h => hknown _ h rfl
  refine ⟨w.condition (.column (p.column left)) (p.column left) true,
    w.condition (.column (p.column left)) (p.column left) false, ?_, ?_, ?_, ?_, fun e row => ⟨?_, ?_⟩⟩
  · simp [plainCondition, hf, literalLeaf, inValues, hw]
  · simp [plainCondition, hf, literalLeaf, inValues, hw]
  · rwa [w.params_condition]
  · rwa [w.params_condition]
  · refine hknown.holds_condition.trans ?_
    cases row (p.column left) with
    | none => exact hgathers.unset
    | some a =>
      constructor
      · rintro ⟨param, hparam, heq⟩
        obtain ⟨v, hv, hasks, hbound⟩ := (hgathers.params param).mp hparam
        exact ⟨v, hv, hasks, param, hbound, heq⟩
      · rintro ⟨v, hv, hasks, param, hbound, heq⟩
        exact ⟨param, (hgathers.params param).mpr ⟨v, hv, hasks, hbound⟩, heq⟩
  · exact hknown.opposite (p.column left)

/-- With `false` in the list, `in` finds the tasks that are not done and those of which it is not known. -/
theorem list_parts_rows_tasks :
    let p : Place := ⟨taskModel, "task"⟩
    let items : List Json := [.bool false, .bool false, .null]
    p.model.field? "done" = some { name := "done", type := .boolean } ∧ (∀ v ∈ items, v.isScalar) ∧
      ∃ found,
        plainCondition ⟨"done", .within, .value (.arr items)⟩ p taskCompiler.context = .ok found ∧
        ∀ row : Row Datum, (found.truth Datum.engine row).holds = true ↔
          row ⟨"task", "done"⟩ ∈ [none, some (.bool false)] := by
  intro p items
  have hf : p.model.field? "done" = some { name := "done", type := .boolean } := rfl
  have hitems : ∀ v ∈ items, v.isScalar := by
    intro v hv
    simp only [items, List.mem_cons, List.not_mem_nil, or_false] at hv
    rcases hv with rfl | rfl | rfl <;> rfl
  obtain ⟨found, rest, hfound, -, -, -, hrows⟩ := list_parts_rows hf hitems taskCompiler.context
  refine ⟨hf, hitems, found, hfound, fun row => (hrows Datum.engine row).1.trans ?_⟩
  have hcolumn : row ⟨"task", "done"⟩ = row (p.column "done") := rfl
  rw [hcolumn]
  cases row (p.column "done") with
  | none => simp [items, Json.isUnset]
  | some a => simp [items, Json.AsksForItself, Json.isUnset, Param.ofJson?, Datum.engine]

end Compile
end RecordFilter
