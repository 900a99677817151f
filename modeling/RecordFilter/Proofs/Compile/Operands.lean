import RecordFilter.Proofs.Compile.Invariants
import RecordFilter.Proofs.Compile.Reduction

/-! Properties of operands. Negations that move, parts that are combined and the leaf that leaves out records bring in no
    subquery. So where values have a property, and what is found for a domain has it if the domain's operands do, every
    operand that a reduction makes has it. -/

namespace RecordFilter

namespace Domain
variable {P : Operand → Prop}

theorem operands_ofLeaf {left : String} {op : Operator} {right : Operand} (h : P right) :
    ∀ l ∈ (ofLeaf left op right).leaves, P l.right := by
  intro l hl
  rw [List.mem_singleton.mp hl]
  exact h

theorem operands_distributeNot {d e : Domain} (h : ∀ l ∈ d.leaves, P l.right) (he : distributeNot d = .ok e) :
    ∀ l ∈ e.leaves, P l.right := by
  intro l hl
  obtain ⟨l', hl', hsubject⟩ := of_mem_leaves_distributeNot he hl
  have hright : l'.right = l.right := congrArg Prod.snd hsubject
  exact hright ▸ h l' hl'

end Domain

namespace Compile
open Sql

variable {P : Operand → Prop} {s : Setting} {build : QueryBuilder} {l : Leaf} {p : Place} {d : Domain}

/-! ### Work -/

theorem Work.operand_leaf (h : P l.right) : ∀ l', (Work.mk (.leaf l) p).token = .leaf l' → P l'.right := by
  intro l' hl'
  cases hl'
  exact h

theorem Work.operands_ofDomain (h : ∀ l ∈ d.leaves, P l.right) :
    ∀ w ∈ Work.ofDomain p d, w.place = p ∧ ∀ l, w.token = .leaf l → P l.right := by
  intro w hw
  obtain ⟨token, htoken, rfl⟩ := List.mem_map.mp hw
  refine ⟨rfl, fun l hl => h l ?_⟩
  exact List.mem_filterMap.mpr ⟨token, htoken, by rw [show token = .leaf l from hl]; rfl⟩

theorem operands_withActive {r : Registry} {ctx : Context} {m : Model} {e : Domain} (hvalue : ∀ v, P (.value v))
    (h : ∀ l ∈ d.leaves, P l.right) (he : withActive r ctx m d = .ok e) : ∀ l ∈ e.leaves, P l.right := by
  intro l hl
  rcases of_mem_leaves_withActive he hl with hl | ⟨active, -, rfl⟩
  · exact h l hl
  · exact hvalue _

/-! ### Hierarchies -/

/-- A leaf of a hierarchy on the records themselves compares their paths or their ids. -/
theorem OwnHierarchy.leaf_cases (h : OwnHierarchy d) (hl : l ∈ d.leaves) :
    (∃ path, l = ⟨"parent_path", .eqLike, .value (.str (path ++ "%"))⟩) ∨
      ∃ ids, l = ⟨"id", .within, .value (.ofIds ids)⟩ := by
  cases h with
  | never => cases hl
  | paths hd =>
    obtain ⟨d', hd', hl⟩ := Domain.of_mem_leaves_anyOf hd hl
    obtain ⟨path, -, rfl⟩ := List.mem_map.mp hd'
    exact .inl ⟨path.2, List.mem_singleton.mp hl⟩
  | ids ids => exact .inr ⟨ids, List.mem_singleton.mp hl⟩

theorem OwnHierarchy.operands (hvalue : ∀ v, P (.value v)) (h : OwnHierarchy d) : ∀ l ∈ d.leaves, P l.right := by
  intro l hl
  obtain ⟨path, rfl⟩ | ⟨ids, rfl⟩ := h.leaf_cases hl
  · exact hvalue _
  · exact hvalue _

/-! ### What is found -/

/-- The order of a query does not count for its ids where all of them are given. -/
theorem ids_inIdOrder {q : Query} (h : q.window = {}) : (inIdOrder q).ids = q.ids := by
  unfold Query.ids Query.subselect inIdOrder
  rw [h]
  rfl

/-- Values have the property, and so has what is found for a domain whose operands have it. -/
structure Passes (s : Setting) (build : QueryBuilder) (P : Operand → Prop) : Prop where
  value (v : Json) : P (.value v)
  found {ctx : Context} {model : String} {d : Domain} {found : Found} :
    ctx = s.context ∨ ctx = { s.context with activeTest := false } → (∀ l ∈ d.leaves, P l.right) →
      Finds build ctx model d found → P found.operand

theorem HierarchyOf.operands (hP : Passes s build P) {m : Model} {target : Target} (h : HierarchyOf s build m target d) :
    ∀ l ∈ d.leaves, P l.right := by
  cases h with
  | never => exact nofun
  | own h => exact h.operands hP.value
  | via h hf => exact Domain.operands_ofLeaf (hP.found (.inl rfl) (h.operands hP.value) hf)

theorem PathOperand.passes (hP : Passes s build P) {comodel : Model} (hd : ∀ l ∈ d.leaves, P l.right) {operand : Operand}
    (h : PathOperand s build comodel d operand) : P operand := by
  cases h with
  | found hctx hf => exact hP.found hctx hd hf
  | lines ids => exact hP.value _

theorem HookOperand.passes (hP : Passes s build P) (hl : P l.right) {f : Field} {op : Operator} {operand : Operand}
    (h : HookOperand s build l f op operand) : P operand := by
  cases h with
  | own => exact hl
  | rest _ _ hf => exact hP.found (.inl rfl) (Domain.operands_ofLeaf hl) hf

theorem Names.passes (hl : P l.right) {related : Related} (h : Names l related) {sub : Select} (hsub : related = .rows sub) :
    P (.subquery sub) := by
  cases h with
  | ids ids => cases hsub
  | operand hright =>
    cases hsub
    exact hright ▸ hl

end Compile
end RecordFilter
