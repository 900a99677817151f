import Mathlib.Data.List.Perm.Subperm
import Mathlib.Logic.Relation
import RecordFilter.Proofs.Compile.Aliases
import RecordFilter.Proofs.Compile.Lines

/-! Chains of delegations. A model without a field passes its name on to a parent, and the compiler asks there again.
    Each lookup is bounded by itself; the chain of them ends at a field unless it comes back to a model that it has
    passed through, and then the compiler follows it for ever. -/

open Relation (ReflTransGen TransGen)

namespace RecordFilter

namespace Registry
variable {r : Registry} {name : String} {m parent : Model}

/-- The name leads from the model to the parent. -/
def PassesOn (r : Registry) (name : String) (m parent : Model) : Prop :=
  ∃ link, r.resolve? m name = some (.inherited parent link)

/-- From the model the name comes to some model that passes it on to others until it is back. -/
def Bounces (r : Registry) (name : String) (m : Model) : Prop :=
  ∃ k, ReflTransGen (r.PassesOn name) m k ∧ TransGen (r.PassesOn name) k k

/-- The model declares the other one as a parent. -/
def Inherits (r : Registry) (m parent : Model) : Prop :=
  ∃ parentName link, (parentName, link) ∈ m.inherits.entries ∧ r.model? parentName = some parent

/-- No model is its own ancestor. -/
def Acyclic (r : Registry) : Prop := ∀ m, ¬TransGen r.Inherits m m

/-- A name is found through one more level where a parent has it, or finds it through the others. -/
theorem inherited?_isSome_iff {depth : Nat} :
    (r.inherited? name (depth + 1) m).isSome ↔
      ∃ parent, r.Inherits m parent ∧ ((parent.field? name).isSome ∨ (r.inherited? name depth parent).isSome) := by
  rw [inherited?, List.findSome?_isSome_iff]
  constructor
  · rintro ⟨⟨parentName, link⟩, hmem, hfound⟩
    dsimp only at hfound
    split at hfound
    · cases hfound
    · rename_i parent hparent
      split at hfound
      · rename_i hhas
        exact ⟨parent, ⟨parentName, link, hmem, hparent⟩, by simpa using hhas⟩
      · cases hfound
  · rintro ⟨parent, ⟨parentName, link, hmem, hparent⟩, hhas⟩
    refine ⟨(parentName, link), hmem, ?_⟩
    simp [hparent, hhas]

/-- What is found through some levels of parents is found through more. -/
theorem inherited?_isSome_succ {depth : Nat} (h : (r.inherited? name depth m).isSome) :
    (r.inherited? name (depth + 1) m).isSome := by
  induction depth generalizing m with
  | zero => cases h
  | succ depth ih =>
    obtain ⟨parent, hinherits, hfound⟩ := inherited?_isSome_iff.mp h
    exact inherited?_isSome_iff.mpr ⟨parent, hinherits, hfound.imp_right ih⟩

theorem inherited?_isSome_mono {depth more : Nat} (hle : depth ≤ more) (h : (r.inherited? name depth m).isSome) :
    (r.inherited? name more m).isSome := by
  induction hle with
  | refl => exact h
  | step _ ih => exact inherited?_isSome_succ ih

namespace PassesOn

/-- Where a name is passed on, it is found again. -/
theorem isSome (h : r.PassesOn name m parent) : (r.resolve? parent name).isSome := by
  obtain ⟨link, h⟩ := h
  unfold resolve? at h
  split at h
  · cases h
  · rw [inherited?] at h
    obtain ⟨⟨parentName, link'⟩, -, hfound⟩ := List.exists_of_findSome?_eq_some h
    dsimp only at hfound
    split at hfound
    · cases hfound
    · split at hfound
      · rename_i hhas
        cases hfound
        unfold resolve?
        cases hfield : parent.field? name with
        | some f => rfl
        | none =>
          rw [hfield] at hhas
          exact inherited?_isSome_succ (by simpa using hhas)
      · cases hfound

theorem has (h : r.PassesOn name m parent) : r.Has parent := by
  obtain ⟨link, h⟩ := h
  obtain ⟨parentName, -, hparent⟩ := resolve?_inherited h
  exact ⟨parentName, hparent⟩

end PassesOn

/-- Who bounces a name passes it on to someone who does. -/
theorem Bounces.next (h : r.Bounces name m) :
    ∃ parent link, r.resolve? m name = some (.inherited parent link) ∧ r.Bounces name parent := by
  obtain ⟨k, hreach, hcycle⟩ := h
  rcases hreach.cases_head with rfl | ⟨parent, hpasses, hreach⟩
  · obtain ⟨parent, hpasses, hreach⟩ := TransGen.head'_iff.mp hcycle
    obtain ⟨link, hresolve⟩ := hpasses
    exact ⟨parent, link, hresolve, m, hreach, hcycle⟩
  · obtain ⟨link, hresolve⟩ := hpasses
    exact ⟨parent, link, hresolve, k, hreach, hcycle⟩

/-- Where no model is its own ancestor, no name comes back. -/
theorem Acyclic.not_bounces (h : r.Acyclic) : ¬r.Bounces name m := by
  rintro ⟨k, -, hcycle⟩
  refine h k (hcycle.lift id fun m parent ⟨link, hresolve⟩ => ?_)
  obtain ⟨parentName, hmem, hparent⟩ := resolve?_inherited hresolve
  exact ⟨parentName, link, hmem, hparent⟩

/-- Where parents come before their children in some order, no model is its own ancestor. -/
theorem acyclic_of_rank (rank : Model → Nat)
    (h : ∀ {m parent}, r.Has m → r.Inherits m parent → rank parent < rank m) : r.Acyclic := by
  have has : ∀ {m parent}, r.Inherits m parent → r.Has parent := fun ⟨parentName, _, _, hparent⟩ => ⟨parentName, hparent⟩
  have lower : ∀ {m k}, TransGen r.Inherits m k → r.Has m → rank k < rank m := by
    intro m k hreach hm
    induction hreach with
    | single hfirst => exact h hm hfirst
    | tail hreach hlast ih =>
      have hmid : r.Has _ := (TransGen.tail'_iff.mp hreach).elim fun _ hstep => has hstep.2
      exact Nat.lt_trans (h hmid hlast) ih
  intro m hback
  obtain ⟨_, -, hlast⟩ := TransGen.tail'_iff.mp hback
  exact Nat.lt_irrefl _ (lower hback (has hlast))

/-- No more models are registered than the registry has. -/
theorem length_le_of_has {ms : List Model} (hnodup : ms.Nodup) (hms : ∀ m ∈ ms, r.Has m) :
    ms.length ≤ r.models.size := by
  have hsub : ms ⊆ r.models.values := by
    intro m hm
    obtain ⟨name, hname⟩ := hms m hm
    exact List.mem_map_of_mem (f := Prod.snd) (mem_of_lookup hname)
  have hlength := (hnodup.subperm hsub).length_le
  rwa [Keyed.values, List.length_map] at hlength

/-- The models that a name has passed through on its way to the present one, each once. -/
structure PassedThrough (r : Registry) (name : String) (passed : List Model) (m : Model) : Prop where
  nodup : passed.Nodup
  has : ∀ k ∈ passed, r.Has k
  reaches : ∀ k ∈ passed, TransGen (r.PassesOn name) k m

namespace PassedThrough
variable {passed : List Model}

/-- The present model is another one, or the name would have come back to it. -/
theorem notMem (h : r.PassedThrough name passed m) (hbounces : ¬r.Bounces name m) : m ∉ passed := fun hmem =>
  hbounces ⟨m, .refl, h.reaches m hmem⟩

theorem next (h : r.PassedThrough name passed m) (hm : r.Has m) (hbounces : ¬r.Bounces name m)
    (hpasses : r.PassesOn name m parent) : r.PassedThrough name (m :: passed) parent where
  nodup := List.nodup_cons.mpr ⟨h.notMem hbounces, h.nodup⟩
  has := List.forall_mem_cons.mpr ⟨hm, h.has⟩
  reaches := List.forall_mem_cons.mpr ⟨.single hpasses, fun k hk => (h.reaches k hk).tail hpasses⟩

theorem length_lt (h : r.PassedThrough name passed m) (hm : r.Has m) (hbounces : ¬r.Bounces name m) :
    passed.length < r.models.size := by
  have hnodup : (m :: passed).Nodup := List.nodup_cons.mpr ⟨h.notMem hbounces, h.nodup⟩
  exact length_le_of_has hnodup (List.forall_mem_cons.mpr ⟨hm, h.has⟩)

end PassedThrough
end Registry

namespace Compile
open Registry Sql

variable {s : Setting} {build : QueryBuilder} {r : Registry} {name : String} {l : Leaf} {p : Place}

/-! ### Chains that end -/

/-- From a model with the field the chain has no more hops; from others it has those of the parent, and one. With each
    hop a model has been passed through that was not before. -/
theorem delegates_past (hops : Nat) (passed : List Model) (h : r.PassedThrough name passed p.model)
    (hsize : r.models.size ≤ passed.length + hops) (hm : r.Has p.model) (hfound : (r.resolve? p.model name).isSome)
    (hbounces : ¬r.Bounces name p.model) :
    ∃ joins p' f, Delegates r name p joins p' ∧ joins.length < hops ∧ r.resolve? p'.model name = some (.local f) := by
  have hlength := h.length_lt hm hbounces
  induction hops generalizing passed p with
  | zero => omega
  | succ hops ih =>
    obtain ⟨lookup, hlookup⟩ := Option.isSome_iff_exists.mp hfound
    cases lookup with
    | «local» f => exact ⟨[], p, f, .here p, Nat.succ_pos hops, hlookup⟩
    | inherited parent link =>
      have hpasses : r.PassesOn name p.model parent := ⟨link, hlookup⟩
      have hbounces' : ¬r.Bounces name parent := fun ⟨k, hreach, hcycle⟩ => hbounces ⟨k, hreach.head hpasses, hcycle⟩
      have h' := h.next hm hbounces hpasses
      obtain ⟨joins, p', f, hdelegates, hjoins, hlocal⟩ :=
        ih (p := ⟨parent, makeAlias p.tableAlias link⟩) (p.model :: passed) h' (by rw [List.length_cons]; omega)
          hpasses.has hpasses.isSome hbounces' (h'.length_lt hpasses.has hbounces')
      exact ⟨_ :: joins, p', f, .parent hlookup hdelegates, Nat.succ_lt_succ hjoins, hlocal⟩

theorem delegates_ends (hm : r.Has p.model) (hfound : (r.resolve? p.model name).isSome)
    (hbounces : ¬r.Bounces name p.model) :
    ∃ joins p' f, Delegates r name p joins p' ∧ joins.length < r.models.size ∧
      r.resolve? p'.model name = some (.local f) :=
  delegates_past r.models.size [] ⟨.nil, nofun, nofun⟩ (by simp) hm hfound hbounces

/-! ### Chains that do not end -/

/-- Along a chain a name that bounces goes on bouncing, so no model has a field for it. -/
theorem Delegates.bounces {joins : List Join} {p' : Place} (h : Delegates r name p joins p')
    (hbounces : r.Bounces name p.model) : r.Bounces name p'.model := by
  induction h with
  | here => exact hbounces
  | parent hresolve _ ih =>
    obtain ⟨parent, link, hresolve', hnext⟩ := hbounces.next
    rw [hresolve] at hresolve'
    cases hresolve'
    exact ih hnext

/-- A leaf whose field bounces goes from parent to parent whatever the fuel. -/
theorem Bounces.unfinished (h : s.registry.Bounces l.path.1 p.model) (hop : l.op ≠ .eqIfSet) (fuel : Nat)
    (rest : List Work) (results : List Cond) (q : Query) (tr : Trace) :
    ¬Finished (Machine.outcome s build fuel ⟨⟨.leaf l, p⟩ :: rest, results, q⟩ tr) := by
  induction fuel generalizing p q tr with
  | zero => exact fun hfin => hfin rfl
  | succ fuel ih =>
    obtain ⟨parent, link, hresolve, hnext⟩ := h.next
    have hmoves := (Delegates.parent hresolve (.here _)).moves (s := s) build hop rest results q
    obtain ⟨tr', hout⟩ := hmoves fuel tr
    rw [show fuel + 1 = fuel + [Query.joinThrough p.tableAlias link parent.table "id" link].length from rfl, hout]
    exact ih hnext _ tr'

/-- So the compilation of such a leaf has no end. -/
theorem Bounces.compile_unfinished {c : Compiler} {model : String} {m : Model} (h : c.registry.Bounces l.path.1 m)
    (hop : l.op ≠ .eqIfSet) (hm : c.registry.model model = .ok m) (fuel : Nat) (q : Query) (tr : Trace) :
    ¬Finished ((c.compile fuel model [.leaf l] q).run tr) := by
  have hleaf : ¬Finished ((Compiler.compileOn (c.setting c.context) (c.queryIn fuel) fuel ⟨m, q.tableAlias⟩ [.leaf l]
      q).run tr) :=
    Bounces.unfinished (s := c.setting c.context) (p := ⟨m, q.tableAlias⟩) h hop fuel [] [] q tr
  rw [Compiler.compile, compileWith_run (c.setting c.context) (c.queryIn fuel) hm]
  rcases hon : (Compiler.compileOn (c.setting c.context) (c.queryIn fuel) fuel ⟨m, q.tableAlias⟩ [.leaf l] q).run tr with
    ⟨⟨stop | cond, q'⟩, tr'⟩ <;> rw [hon] at hleaf
  · exact fun hfin => hleaf fun hstop => hfin (by cases hstop; rfl)
  · exact absurd nofun hleaf

/-! ### All chains -/

/-- Following a name that is found on a registered model comes to a field after fewer hops than there are models, and
    so does the compiler, just where no model that the name gets to gets it back. Where one does, compiling a leaf on
    the name does not end. -/
theorem delegation_ends_iff (hm : s.registry.Has p.model) (hfound : (s.registry.resolve? p.model name).isSome)
    (build : QueryBuilder) :
    ((∃ joins p' f, Delegates s.registry name p joins p' ∧ joins.length < s.registry.models.size ∧
        s.registry.resolve? p'.model name = some (.local f) ∧
        ∀ l : Leaf, l.path.1 = name → l.op ≠ .eqIfSet → ∀ rest results q,
          Machine.Moves s build joins.length ⟨⟨.leaf l, p⟩ :: rest, results, q⟩
            ⟨⟨.leaf l, p'⟩ :: rest, results, joins.foldl .addJoin q⟩) ↔
      ¬s.registry.Bounces name p.model) ∧
    (s.registry.Bounces name p.model → ∀ l : Leaf, l.path.1 = name → l.op ≠ .eqIfSet → ∀ fuel rest results q tr,
      ¬Finished (Machine.outcome s build fuel ⟨⟨.leaf l, p⟩ :: rest, results, q⟩ tr)) := by
  refine ⟨⟨?_, fun hbounces => ?_⟩, ?_⟩
  · rintro ⟨joins, p', f, hdelegates, -, hlocal, -⟩ hbounces
    obtain ⟨parent, link, hresolve, -⟩ := (hdelegates.bounces hbounces).next
    rw [hlocal] at hresolve
    cases hresolve
  · obtain ⟨joins, p', f, hdelegates, hjoins, hlocal⟩ := delegates_ends hm hfound hbounces
    refine ⟨joins, p', f, hdelegates, hjoins, hlocal, fun l hl hop rest results q => ?_⟩
    subst hl
    exact hdelegates.moves build hop rest results q
  · rintro hbounces l rfl hop fuel rest results q tr
    exact Bounces.unfinished hbounces hop fuel rest results q tr

/-- The country of a user is that of the partner: one hop. -/
theorem delegation_ends_users :
    let s := userCompiler.setting userCompiler.context
    let join := Query.joinThrough "user" "partner_id" "partner" "id" "partner_id"
    s.registry.Has userModel ∧ (s.registry.resolve? userModel "country_id").isSome ∧
      Delegates s.registry "country_id" ⟨userModel, "user"⟩ [join] ⟨partnerModel, "user__partner_id"⟩ ∧
      ¬s.registry.Bounces "country_id" userModel := by
  intro s join
  have hm : s.registry.Has userModel := ⟨"user", rfl⟩
  have hresolve : s.registry.resolve? userModel "country_id" = some (.inherited partnerModel "partner_id") := rfl
  have hchain : Delegates s.registry "country_id" ⟨userModel, "user"⟩ [join] ⟨partnerModel, "user__partner_id"⟩ :=
    .parent (p := ⟨userModel, "user"⟩) hresolve (.here _)
  refine ⟨hm, rfl, hchain, ?_⟩
  refine (delegation_ends_iff (p := ⟨userModel, "user"⟩) hm rfl (userCompiler.queryIn 0)).1.mp ?_
  refine ⟨_, _, { Field.many2one "country_id" "country" with autoJoin := true }, hchain, by decide, rfl, ?_⟩
  intro l hl hop rest results q
  rw [← hl] at hchain
  exact hchain.moves _ hop rest results q

/-! ### Two parents of each other -/

/-- An employee is a partner and a record. -/
def employeeModel : Model :=
  ((((Model.ofTable "employee" "employee").withField (Field.many2one "partner_id" "partner")).withField
    (Field.many2one "record_id" "record")).inheriting "partner" "partner_id").inheriting "record" "record_id"

/-- A partner is an employee. -/
def partnerOfEmployee : Model :=
  ((Model.ofTable "partner" "partner").withField (Field.many2one "employee_id" "employee")).inheriting "employee"
    "employee_id"

def recordModel : Model := (Model.ofTable "record" "record").withField { name := "code", type := .char }

/-- A compiler for employees, partners and records, without a database. -/
def employeeCompiler : Compiler where
  registry := { models := ((Keyed.empty.insert "employee" employeeModel).insert "partner" partnerOfEmployee).insert
                  "record" recordModel }
  context := taskCompiler.context

theorem valid_employees : employeeCompiler.registry.Valid where
  built := .register (m := recordModel) (.register (m := partnerOfEmployee) (.register (m := employeeModel) .empty rfl)
    rfl) rfl
  validated := rfl

/-- The code of an employee is found, two hops away at a record, but the employee looks for it at the partner first, and
    the partner at the employee: no chain of hops ends, and the compilation of a domain on the code does not either. -/
theorem code_bounces :
    let s := employeeCompiler.setting employeeCompiler.context
    s.registry.Valid ∧ s.registry.Has employeeModel ∧ (s.registry.resolve? employeeModel "code").isSome ∧
      (∀ joins p' f, Delegates s.registry "code" ⟨employeeModel, "employee"⟩ joins p' →
        s.registry.resolve? p'.model "code" ≠ some (.local f)) ∧
      ∀ fuel, ¬Finished ((employeeCompiler.compile fuel "employee" [.leaf ⟨"code", .eq, .value (.str "A")⟩]
        (.ofTable "employee")).run {}) := by
  intro s
  have hbounces : s.registry.Bounces "code" employeeModel :=
    ⟨employeeModel, .refl, .head (b := partnerOfEmployee) ⟨"partner_id", rfl⟩ (.single ⟨"employee_id", rfl⟩)⟩
  refine ⟨valid_employees, ⟨"employee", rfl⟩, rfl, fun joins p' f hdelegates hlocal => ?_, fun fuel => ?_⟩
  · obtain ⟨parent, link, hresolve, -⟩ := (hdelegates.bounces hbounces).next
    rw [hlocal] at hresolve
    cases hresolve
  · exact Bounces.compile_unfinished (c := employeeCompiler) (l := ⟨"code", .eq, .value (.str "A")⟩) (m := employeeModel)
      hbounces nofun rfl fuel _ _

end Compile
end RecordFilter
