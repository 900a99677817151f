import RecordFilter.Proofs.Compile.Kinds
import RecordFilter.Proofs.Compile.Settling
import RecordFilter.Proofs.Domain.Paths

/-! Leaves on the fields of a model, its own and those that it inherits, and paths through its lines. Where the field
    of a line that points back has a column, the owners of the found lines are compared with the id. -/

namespace RecordFilter.Compile
open Sql

variable {r : Registry} {m : Model} {l : Leaf}

/-- Hierarchies apart, the kind of a leaf on a field of the model is that of the field. -/
theorem classify_own (hr : r.Valid) (hm : r.Has m) {f : Field} (hf : m.field? l.left = some f)
    (hl : l.op.isHierarchy = false) : classify r m l = classifyField r f := by
  have hdotless : '.' ∉ l.left.toList := Text.not_mem_of_isIdentifier (hr.isIdentifier_field hm hf) (by decide)
  unfold classify
  rw [show l.path = (l.left, none) from Leaf.path_of_dotless hdotless]
  dsimp only
  rw [Registry.resolve?, hf]
  simp only [hl, Bool.and_false, Bool.false_eq_true, if_false]

/-- The kind of a path that goes on after a field of the model is that of the path from the field. -/
theorem classify_through (hr : r.Valid) (hm : r.Has m) {name : String} {f : Field} (hf : m.field? name = some f)
    (rest : String) (op : Operator) (right : Operand) :
    classify r m ⟨name ++ "." ++ rest, op, right⟩ = classifyPath r m ⟨name ++ "." ++ rest, op, right⟩ f rest := by
  have hdotless : '.' ∉ name.toList := Text.not_mem_of_isIdentifier (hr.isIdentifier_field hm hf) (by decide)
  unfold classify
  rw [Leaf.path_append hdotless]
  dsimp only
  rw [Registry.resolve?, hf]

/-! ### Inherited fields -/

/-- Delegations lead from a place to the place where a field is looked for, through some joins. -/
inductive Delegates (r : Registry) (name : String) : Place → List Join → Place → Prop
  | here (p : Place) : Delegates r name p [] p
  | parent {p p' : Place} {parent link joins} : r.resolve? p.model name = some (.inherited parent link) →
      Delegates r name ⟨parent, makeAlias p.tableAlias link⟩ joins p' →
      Delegates r name p (Query.joinThrough p.tableAlias link parent.table "id" link :: joins) p'

section
variable {s : Setting} {build : QueryBuilder} {p p' : Place} {joins : List Join} {c : Cond} {n : Nat}

theorem Delegates.has {name : String} (h : Delegates s.registry name p joins p') (hm : s.registry.Has p.model) :
    s.registry.Has p'.model := by
  induction h with
  | here => exact hm
  | parent hresolve _ ih =>
    obtain ⟨parentName, -, hparent⟩ := Registry.resolve?_inherited hresolve
    exact ih ⟨parentName, hparent⟩

/-- A leaf on an inherited field is read at the place of the field after as many steps as there are joins. -/
theorem Delegates.moves (h : Delegates s.registry l.path.1 p joins p') (build : QueryBuilder) (hop : l.op ≠ .eqIfSet)
    (rest : List Work) (results : List Cond) (q : Query) :
    Machine.Moves s build joins.length ⟨⟨.leaf l, p⟩ :: rest, results, q⟩
      ⟨⟨.leaf l, p'⟩ :: rest, results, joins.foldl .addJoin q⟩ := by
  induction h generalizing q with
  | here => exact .refl _
  | @parent p p' parent link joins hresolve _ ih =>
    have hclass : classify s.registry p.model l = .ok (.inherited parent link) := by
      unfold classify
      dsimp only
      rw [hresolve]
    exact (Machine.moves_leaf (reduce_of_classify hop hclass (.pure _)) rest results q).trans (ih _)

/-- So a leaf that settles where its field is compiles with the joins that lead there. -/
theorem Settles.compileFrom (h : Settles s build n l p' c) (hp : Delegates s.registry l.path.1 p joins p')
    (hop : l.op ≠ .eqIfSet) {fuel : Nat} (hfuel : joins.length + n ≤ fuel) {model : String}
    (hm : s.registry.model model = .ok p.model) {q : Query} (hq : q.tableAlias = p.tableAlias) (tr : Trace) :
    ∃ tr', (Compiler.compileWith s build fuel model [.leaf l] q).run tr =
      ((.ok (), (joins.foldl .addJoin q).addCondition c), tr') := by
  have hmoves := (hp.moves build hop [] [] q).trans (h [] [] _)
  exact compileWith_of_moves rfl hmoves (by omega) hm hq tr

/-- A negation that the leaf keeps comes up after it. -/
theorem Settles.compileNot (h : Settles s build n l p' c) (hp : Delegates s.registry l.path.1 p joins p')
    (hop : l.op ≠ .eqIfSet) (hkeeps : l.op.negate? = none) {fuel : Nat} (hfuel : joins.length + n + 1 ≤ fuel)
    {model : String} (hm : s.registry.model model = .ok p.model) {q : Query} (hq : q.tableAlias = p.tableAlias) (tr : Trace) :
    ∃ tr', (Compiler.compileWith s build fuel model [.not, .leaf l] q).run tr =
      ((.ok (), (joins.foldl .addJoin q).addCondition (.not c)), tr') := by
  have hd : Domain.distributeNot [.not, .leaf l] = .ok [.not, .leaf l] := by
    have hpush : Domain.distributeNot [.not, .leaf l] = .ok (Domain.negateLeaf l ++ []) := rfl
    rw [hpush, Domain.negateLeaf, hkeeps]
    rfl
  have hnot : Machine.Moves s build 1 ⟨[⟨.not, p⟩], [c], joins.foldl .addJoin q⟩ ⟨[], [.not c], joins.foldl .addJoin q⟩ :=
    Machine.moves_step (.pure _)
  have hmoves := (hp.moves build hop [⟨.not, p⟩] [] q).trans ((h [⟨.not, p⟩] [] _).trans hnot)
  exact compileWith_of_moves hd hmoves (by omega) hm hq tr

end

/-! ### Lines -/

/-- A field of the model whose records are those of another model that point back to the record. -/
structure HasLines (r : Registry) (m : Model) (f : Field) (target : Model) (inverse : Field) : Prop where
  field : m.field? f.name = some f
  store : f.store
  type : f.type = .one2many
  comodel : r.comodel f = .ok target
  inverse : inverseField m f target = .ok inverse

namespace HasLines
variable {f inverse : Field} {target : Model}

theorem has (h : HasLines r m f target inverse) : r.Has target := Registry.has_of_comodel h.comodel

/-- The inverse is a field of the other model, under the name that the field gives. -/
theorem inverse_field (h : HasLines r m f target inverse) :
    inverseName m f = .ok inverse.name ∧ (target.field? inverse.name).any (!·.store) = !inverse.store := by
  have hinverse := h.inverse
  unfold inverseField at hinverse
  cases hname : Compile.inverseName m f with
  | error e =>
    rw [hname] at hinverse
    cases hinverse
  | ok name =>
    simp only [hname] at hinverse
    cases hfield : target.field? name with
    | none =>
      rw [hfield] at hinverse
      cases hinverse
    | some g =>
      rw [hfield] at hinverse
      cases hinverse
      simp [hfield]

theorem classify_field (h : HasLines r m f target inverse) (hr : r.Valid) (hm : r.Has m) (right : Operand) :
    classify r m ⟨f.name, .within, right⟩ = .ok (.one2many f target) := by
  rw [classify_own (l := ⟨f.name, .within, right⟩) hr hm h.field rfl]
  simp [classifyField, h.store, h.type, h.comodel, Except.map]

theorem classify_path (h : HasLines r m f target inverse) (hr : r.Valid) (hm : r.Has m) (rest : String) (op : Operator)
    (right : Operand) :
    classify r m ⟨f.name ++ "." ++ rest, op, right⟩ =
      .ok (if f.autoJoin then .linesPath f target rest else .path f target rest) := by
  rw [classify_through hr hm h.field rest op right]
  cases hauto : f.autoJoin <;> simp [classifyPath, h.store, h.type, h.comodel, hauto, FieldType.isRelational]

end HasLines

/-! ### Owners of lines -/

section
variable {s : Setting} {build : QueryBuilder} {p : Place} {f inverse : Field} {target : Model}

/-- Some values in the column of ids. -/
def idWithin (p : Place) (sub : Select) : Cond := .group (.member (.column (p.column "id")) true (.select sub))

/-- The condition that a record owns one of the found lines, read from the table of the lines. -/
def ownsFound (p : Place) (target : Model) (inverse : Field) : Found → Cond
  | .nothing => .literal false
  | .rows q => idWithin p (.owners target.table inverse.name (.select q.ids))

theorem idWithin_settles (hr : s.registry.Valid) (hm : s.registry.Has p.model)
    (hid : p.model.field? "id" = some { name := "id", type := .integer }) (sub : Select) :
    Settles s build 1 ⟨"id", .within, .subquery sub⟩ p (idWithin p sub) := by
  have hclass : classify s.registry p.model ⟨"id", .within, .subquery sub⟩ = .ok .plain :=
    classify_own (l := ⟨"id", .within, .subquery sub⟩) hr hm hid rfl
  refine settles_emit (reduce_of_classify (by simp) hclass (emitLeaf_yields ?_))
  unfold plainCondition
  rw [hid]
  rfl

namespace HasLines

/-- Where the inverse has a column, the owners of the found lines are compared with the id. -/
theorem settles (h : HasLines s.registry p.model f target inverse) (build : QueryBuilder) (hr : s.registry.Valid)
    (hm : s.registry.Has p.model) (hid : p.model.field? "id" = some { name := "id", type := .integer })
    (hstore : inverse.store) (found : Found) :
    ∃ n ≤ 2, Settles s build n ⟨f.name, .within, found.operand⟩ p (ownsFound p target inverse found) := by
  have hclass := h.classify_field hr hm found.operand
  cases found with
  | nothing =>
    refine ⟨1, by omega, settles_emit (reduce_of_classify (by simp) hclass ?_)⟩
    rw [reduceKind, reduceOne2many]
    exact .bind (.ofExcept h.inverse) (.bind (a := .ids []) (.pure _) (.pure _))
  | rows q =>
    refine ⟨2, Nat.le_refl 2, (idWithin_settles hr hm hid _).replaced (reduce_of_classify (by simp) hclass ?_)⟩
    rw [reduceKind, reduceOne2many]
    refine .bind (.ofExcept h.inverse) (.bind (a := .rows q.ids) (.pure _) ?_)
    simp only [hstore]
    exact .pure _

/-- The records at the end of a path are searched for. -/
theorem target_yields (h : HasLines s.registry p.model f target inverse) (hstore : inverse.store) {d : Domain}
    {found : Found} (hfound : (findWith build s.context target.name d).Yields found) :
    (reducePath.target s build p f target d).Yields found.operand := by
  obtain ⟨hname, hany⟩ := h.inverse_field
  unfold reducePath.target
  rw [h.type]
  refine .bind (.ofExcept hname) ?_
  simp only [hany, hstore, Bool.not_true, Bool.false_eq_true, if_false]
  exact .bind hfound (.pure _)

/-- A path whose lines are searched apart. -/
theorem path_settles (h : HasLines s.registry p.model f target inverse) (hr : s.registry.Valid)
    (hm : s.registry.Has p.model) (hid : p.model.field? "id" = some { name := "id", type := .integer })
    (hstore : inverse.store) (hauto : f.autoJoin = false) {rest : String} {op : Operator} {right : Operand}
    (hop : op ≠ .eqIfSet) {found : Found}
    (hfound : (findWith build s.context target.name (.ofLeaf rest op right)).Yields found) :
    ∃ n ≤ 3, Settles s build n ⟨f.name ++ "." ++ rest, op, right⟩ p (ownsFound p target inverse found) := by
  obtain ⟨n, hn, hsettles⟩ := h.settles build hr hm hid hstore found
  have hclass := h.classify_path hr hm rest op right
  rw [hauto] at hclass
  have hhead : (Leaf.mk (f.name ++ "." ++ rest) op right).path.1 = f.name := by
    rw [Leaf.path_append (Text.not_mem_of_isIdentifier (hr.isIdentifier_field hm h.field) (by decide))]
  refine ⟨n + 1, by omega, hsettles.replaced (reduce_of_classify hop hclass ?_)⟩
  simp only [Bool.false_eq_true, if_false]
  rw [reduceKind, reducePath, hhead]
  exact .bind (h.target_yields hstore hfound) (.pure _)

/-- A path whose lines are read in place: the inverse of the lines is compared with the id, null among it. -/
theorem joined_settles (h : HasLines s.registry p.model f target inverse) (hr : s.registry.Valid)
    (hm : s.registry.Has p.model) (hid : p.model.field? "id" = some { name := "id", type := .integer })
    (hauto : f.autoJoin = true) {rest : String} {op : Operator} {right : Operand} (hop : op ≠ .eqIfSet) {q : Query}
    (hlines : (build s.context target.name (.ofLeaf rest op right)).Yields q) :
    Settles s build 2 ⟨f.name ++ "." ++ rest, op, right⟩ p
      (idWithin p (q.subselect (.column ⟨q.tableAlias, inverse.name⟩))) := by
  have hclass := h.classify_path hr hm rest op right
  rw [hauto] at hclass
  refine (idWithin_settles hr hm hid _).replaced (reduce_of_classify hop hclass ?_)
  simp only [if_true]
  rw [reduceKind]
  exact .bind (.ofExcept h.inverse_field.1) (.bind hlines (.pure _))

end HasLines
end
end RecordFilter.Compile
