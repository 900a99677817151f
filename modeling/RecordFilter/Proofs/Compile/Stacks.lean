import RecordFilter.Proofs.Compile.Faults
import RecordFilter.Proofs.Compile.Recursion

/-! The errors of the two stacks, an operator without its operands and more than one condition at the end,
    come up in no compilation: the machine never gets there, nothing else that it calls raises them, and
    so neither do the queries inside queries. Only a database or a search hook could answer with one. -/

namespace RecordFilter.Compile
open Sql

variable {r : Registry} {m : Model} {l : Leaf} {p : Place} {ctx : Context} {e : Error}

/-! ### Other sources of errors -/

theorem model_error {name : String} (h : r.model name = .error e) : ¬StackError e := by
  unfold Registry.model at h
  split at h <;> cases h
  simp [StackError]

theorem comodel_error {f : Field} (h : r.comodel f = .error e) : ¬StackError e := by
  unfold Registry.comodel at h
  split at h
  · exact model_error h
  · cases h
    simp [StackError]

theorem classifyPath_error {f : Field} {rest : String} (h : classifyPath r m l f rest = .error e) : ¬StackError e := by
  unfold classifyPath at h
  split at h
  · cases h
  · split at h
    · cases h
      simp [StackError]
    · split at h
      · rename_i hcomodel
        cases h
        exact comodel_error hcomodel
      · split at h
        · split at h <;> cases h
          simp [StackError]
        · cases h

theorem classifyField_error {f : Field} (h : classifyField r f = .error e) : ¬StackError e := by
  -- The kind of a relational field is that of its comodel.
  have relational : ∀ {g : Model → FieldKind}, (r.comodel f).map g = .error e → ¬StackError e := fun {g} h => by
    cases hcomodel : r.comodel f with
    | ok comodel => simp [hcomodel, Except.map] at h
    | error e' =>
      rw [hcomodel] at h
      cases h
      exact comodel_error hcomodel
  unfold classifyField at h
  split at h
  · cases h
  · split at h
    · exact relational h
    · exact relational h
    · exact relational h
    · split at h
      · cases h
      · split at h <;> cases h
    · cases h
    · split at h <;> cases h

theorem classify_error (h : classify r m l = .error e) : ¬StackError e := by
  unfold classify at h
  dsimp only at h
  split at h
  · cases h
    simp [StackError]
  · cases h
  · split at h
    · exact classifyPath_error h
    · split at h
      · cases h
      · exact classifyField_error h

theorem inverseName_error {f : Field} (h : inverseName m f = .error e) : ¬StackError e := by
  unfold inverseName at h
  split at h <;> cases h
  simp [StackError]

theorem inverseField_error {f : Field} {comodel : Model} (h : inverseField m f comodel = .error e) :
    ¬StackError e := by
  unfold inverseField at h
  split at h
  · rename_i hn
    cases h
    exact inverseName_error hn
  · split at h <;> cases h
    simp [StackError]

/-! ### The machine -/

/-- A run stops with an error of the stacks only where the database or a search hook answers with it. -/
def Excused (r : Registry) (b : Backend) (stop : Stop) : Prop := ∀ e, stop = .error e → StackError e → Answers r b e

theorem excused_of_not {b : Backend} (h : ¬StackError e) : Excused r b (.error e) := by
  rintro e' he hstack
  cases he
  exact absurd hstack h

variable {s : Setting} {build : QueryBuilder}

theorem Fails.excused (hbuild : ∀ ctx model d, (build ctx model d).Meets (fun _ => True) (Excused s.registry s.backend))
    {stop : Stop} (h : Fails s build l p stop) : Excused s.registry s.backend stop := by
  cases h with
  | answer h =>
    rintro e' he -
    cases he
    exact h
  | build h => exact (hbuild _ _ _).stops h
  | classify h => exact excused_of_not (classify_error h)
  | plain h => exact excused_of_not (plainCondition_error h).not_stackError
  | translated h => exact excused_of_not (translatedCondition_error h).not_stackError
  | distribute h => exact excused_of_not (distributeNot_error h).not_stackError
  | isFalse h => exact excused_of_not (isFalse_error h).not_stackError
  | paths h => exact excused_of_not (pathDomain_error h).not_stackError
  | inverseName h => exact excused_of_not (inverseName_error h)
  | inverseField h => exact excused_of_not (inverseField_error h)
  | comodel h => exact excused_of_not (comodel_error h)
  | leaf fault => exact excused_of_not (by simp [StackError])
  | badPath => exact excused_of_not (by simp [StackError])
  | limit => exact excused_of_not (by simp [StackError])
  | relation => exact excused_of_not (by simp [StackError])
  | unstoredInverse => exact excused_of_not (by simp [StackError])

/-- An operator stops only where one of its parts does. -/
theorem combined_error {op : Cond → Cond → Cond} {left right : Query → Trace → (Except Stop Cond × Query) × Trace}
    {q q' : Query} {tr tr' : Trace} {stop : Stop} (h : combined op left right q tr = ((.error stop, q'), tr')) :
    right q tr = ((.error stop, q'), tr') ∨ ∃ q₁ tr₁, left q₁ tr₁ = ((.error stop, q'), tr') := by
  unfold combined at h
  rcases hright : right q tr with ⟨⟨e | b, q₁⟩, tr₁⟩ <;> rw [hright] at h
  · exact Or.inl h
  · rcases hleft : left q₁ tr₁ with ⟨⟨e | a, q₂⟩, tr₂⟩ <;> dsimp only at h <;> rw [hleft] at h
    · exact Or.inr ⟨q₁, tr₁, hleft.trans h⟩
    · cases h

/-- Whatever the query and the trace are, the tree stops for excused reasons only. -/
def TreeExcused (s : Setting) (build : QueryBuilder) (depth : Nat) (t : Tree) : Prop :=
  ∀ {q q' tr tr' stop}, treeOutcome s build depth t q tr = ((.error stop, q'), tr') →
    Excused s.registry s.backend stop

theorem treeExcused_combined {depth : Nat} {a b t : Tree} {op : Cond → Cond → Cond}
    (htree : treeOutcome s build depth t = combined op (treeOutcome s build depth a) (treeOutcome s build depth b))
    (ha : TreeExcused s build depth a) (hb : TreeExcused s build depth b) : TreeExcused s build depth t := by
  intro q q' tr tr' stop h
  rw [htree] at h
  rcases combined_error h with h | ⟨q₁, tr₁, h⟩
  · exact hb h
  · exact ha h

theorem treeExcused_of_leaf {depth : Nat} (hleaf : ∀ x, TreeExcused s build depth (.leaf x)) (t : Tree) :
    TreeExcused s build depth t := by
  induction t with
  | const b =>
    intro q q' tr tr' stop h
    cases h
  | leaf x => exact hleaf x
  | not t ih =>
    intro q q' tr tr' stop h
    rw [treeOutcome_not] at h
    rcases ht : treeOutcome s build depth t q tr with ⟨⟨e | c, q₁⟩, tr₁⟩ <;> rw [ht] at h
    · exact ih (ht.trans h)
    · cases h
  | and a b iha ihb => exact treeExcused_combined (treeOutcome_and depth a b) iha ihb
  | or a b iha ihb => exact treeExcused_combined (treeOutcome_or depth a b) iha ihb

theorem treeExcused (hbuild : ∀ ctx model d, (build ctx model d).Meets (fun _ => True) (Excused s.registry s.backend))
    (depth : Nat) (t : Tree) : TreeExcused s build depth t := by
  induction depth generalizing t with
  | zero =>
    refine treeExcused_of_leaf (fun x q q' tr tr' stop h => ?_) t
    cases h
    exact nofun
  | succ depth ih =>
    refine treeExcused_of_leaf (fun x q q' tr tr' stop h => ?_) t
    rcases leaf_cases s build depth x.1 x.2 q tr with
      ⟨e, tr₁, hfails, htree, -⟩ | ⟨c, tr₁, htree, -⟩ | ⟨items, t, q₁, tr₁, -, htree, -⟩
    · cases htree.symm.trans h
      exact hfails.excused hbuild
    · cases htree.symm.trans h
    · exact ih t (htree.symm.trans h)

/-! ### Compilations -/

theorem compileOn_excused
    (hbuild : ∀ ctx model d, (build ctx model d).Meets (fun _ => True) (Excused s.registry s.backend)) {fuel : Nat}
    {d : Domain} {q q' : Query} {tr tr' : Trace} {stop : Stop}
    (h : (Compiler.compileOn s build fuel p d q).run tr = ((.error stop, q'), tr')) :
    Excused s.registry s.backend stop := by
  cases stop with
  | unfinished => exact nofun
  | error e =>
    have hfin : Finished ((Compiler.compileOn s build fuel p d q).run tr) := h ▸ nofun
    rw [compileOn_eq_domain (Nat.le_refl fuel) p d q tr hfin, Assembly.domain] at h
    split at h
    · rename_i hd
      cases h
      exact excused_of_not (distributeNot_error hd).not_stackError
    · rename_i hd
      obtain ⟨t, ht⟩ := spells_of_distributeNot hd p
      rw [ht.work_eq] at h
      exact treeExcused hbuild fuel t h

theorem queryIn_excused (c : Compiler) (fuel : Nat) (ctx : Context) (model : String) (d : Domain) :
    (c.queryIn fuel ctx model d).Meets (fun _ => True) (Excused c.registry c.backend) := by
  induction fuel generalizing ctx model d with
  | zero => exact .throw nofun
  | succ fuel ih =>
    exact queryIn_meets (fun _ h => excused_of_not (model_error h)) (fun _ _ h => excused_of_not (withActive_error h).not_stackError)
      (fun _ _ => trivial) (fun _ _ _ _ _ _ _ _ _ _ _ => trivial) fun _ _ _ _ _ _ _ _ h =>
        compileOn_excused (s := c.setting ctx) (fun ctx model d => ih ctx model d) h

/-- Where the loop finishes, it gives the text or the error, the query and the calls that the recursion over the
    tree of the domain gives. It stops with an error of the stacks only if the database or a search hook answers
    with just that error. -/
theorem compileOn_recursion (c : Compiler) (ctx : Context) (n : Nat) {fuel depth : Nat} (hfuel : fuel ≤ depth) (p : Place)
    (d : Domain) (q : Query) (tr : Trace)
    (hfin : Finished ((Compiler.compileOn (c.setting ctx) (c.queryIn n) fuel p d q).run tr)) :
    let o := (Compiler.compileOn (c.setting ctx) (c.queryIn n) fuel p d q).run tr
    ((o.1.1.map Cond.fragment, o.1.2), o.2) =
        (Assembly.texts.domain (c.setting ctx) (c.queryIn n) depth p d).outcome q tr ∧
      ∀ e, o.1.1 = .error (.error e) → StackError e → Answers c.registry c.backend e := by
  refine ⟨?_, ?_⟩
  · rw [conditions_maps_texts.domain, Building.outcome_map, ← compileOn_eq_domain hfuel p d q tr hfin]
  · rcases ho : (Compiler.compileOn (c.setting ctx) (c.queryIn n) fuel p d q).run tr with ⟨⟨r, q'⟩, tr'⟩
    rintro e rfl
    exact compileOn_excused (s := c.setting ctx) (queryIn_excused c n) ho e rfl

/-- Two leaves under a disjunction, one of them negated and replaced before it has a condition. -/
theorem compileOn_recursion_tasks :
    let d : Domain := [.or, .not, .leaf ⟨"done", .eqIfSet, .value (.bool true)⟩, .leaf ⟨"id", .gt, .value (.int 3)⟩]
    let o := (Compiler.compileOn (taskCompiler.setting taskCompiler.context) (taskCompiler.queryIn 0) 9
      ⟨taskModel, "task"⟩ d (.ofTable "task")).run {}
    Finished o ∧ ((o.1.1.map Cond.fragment, o.1.2), o.2) =
      (Assembly.texts.domain (taskCompiler.setting taskCompiler.context) (taskCompiler.queryIn 0) 9
        ⟨taskModel, "task"⟩ d).outcome (.ofTable "task") {} := by
  intro d o
  have hfin : Finished o := nofun
  exact ⟨hfin, (compileOn_recursion taskCompiler taskCompiler.context 0 (Nat.le_refl 9) _ d _ _ hfin).1⟩

end RecordFilter.Compile
