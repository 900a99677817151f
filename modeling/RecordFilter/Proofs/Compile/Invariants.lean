import RecordFilter.Compile.Machine
import RecordFilter.Compile.Nested
import RecordFilter.Proofs.Compile.Runs
import RecordFilter.Proofs.Domain.Leaves

/-! What a compilation keeps. Properties of the work that waits, of conditions and of queries that every reduction of a
    leaf keeps are kept by every step of the machine. Where records out of use are left out, a domain has one leaf more
    at most. -/

namespace RecordFilter

/-- What holds of all conditions of a query and is kept where two of them are joined holds of its condition. -/
theorem Sql.Query.condition_of {C : Cond → Prop} {q : Query} (literal : C (.literal true))
    (conj : ∀ {a b : Cond}, C a → C b → C (.conj a b)) (h : ∀ c ∈ q.conditions, C c) : C q.condition := by
  have folded : ∀ {rest : List Cond} {c : Cond}, C c → (∀ c' ∈ rest, C c') → C (rest.foldl .conj c) := by
    intro rest
    induction rest with
    | nil => exact fun hc _ => hc
    | cons c' rest ih =>
      exact fun hc hrest => ih (conj hc (hrest c' List.mem_cons_self)) fun c hc => hrest c (List.mem_cons_of_mem _ hc)
  unfold condition
  split
  · exact literal
  · rename_i c rest hcs
    rw [hcs] at h
    exact folded (h c List.mem_cons_self) fun c' hc' => h c' (List.mem_cons_of_mem _ hc')

namespace Compile
open Sql

/-! ### Steps -/

section
variable {s : Setting} {build : QueryBuilder} {W : Work → Prop} {C : Cond → Prop} {Q : Query → Prop}

/-- What a leaf becomes has the properties, and a join that it asks for leaves the query with its own. -/
def Step.Keeps (W : Work → Prop) (C : Cond → Prop) (Q : Query → Prop) : Step → Prop
  | .emit c => C c
  | .requeue items => ∀ w ∈ items, W w
  | .follow join item => (∀ q, Q q → Q (q.addJoin join)) ∧ W item

/-- Properties of work, conditions and queries that every reduction keeps; the operators keep that of conditions. -/
structure Inductive (s : Setting) (build : QueryBuilder) (W : Work → Prop) (C : Cond → Prop) (Q : Query → Prop) :
    Prop where
  literal (b : Bool) : C (.literal b)
  and {a b : Cond} : C a → C b → C (.and a b)
  or {a b : Cond} : C a → C b → C (.or a b)
  not {c : Cond} : C c → C (.not c)
  reduce {l : Leaf} {p : Place} {t t' : Trace} {step : Step} :
    W ⟨.leaf l, p⟩ → (reduce s build l p).Gives t step t' → step.Keeps W C Q

namespace Machine

/-- All that waits in the machine has the properties. -/
structure Keeps (W : Work → Prop) (C : Cond → Prop) (Q : Query → Prop) (m : Machine) : Prop where
  work : ∀ w ∈ m.work, W w
  results : ∀ c ∈ m.results, C c
  query : Q m.query

theorem take_keeps {rest : List Work} {results : List Cond} {q : Query} (h : Keeps W C Q ⟨rest, results, q⟩) {step : Step}
    (hstep : step.Keeps W C Q) : (take q results rest step).Keeps W C Q := by
  cases step with
  | emit c => exact ⟨h.work, List.forall_mem_cons.mpr ⟨hstep, h.results⟩, h.query⟩
  | requeue items =>
    refine ⟨fun w hw => ?_, h.results, h.query⟩
    rcases List.mem_append.mp hw with hw | hw
    · exact hstep w (List.mem_reverse.mp hw)
    · exact h.work w hw
  | follow join item => exact ⟨List.forall_mem_cons.mpr ⟨hstep.2, h.work⟩, h.results, hstep.1 q h.query⟩

/-- One token keeps the properties. -/
theorem step_keeps (h : Inductive s build W C Q) {item : Work} {rest : List Work} {results : List Cond} {q : Query}
    (hm : Keeps W C Q ⟨item :: rest, results, q⟩) {t t' : Trace} {next : Machine}
    (hstep : (step s build item rest results q).Gives t next t') : next.Keeps W C Q := by
  obtain ⟨hitem, hrest⟩ := List.forall_mem_cons.mp hm.work
  have hresults := hm.results
  unfold step at hstep
  split at hstep
  · cases hstep
    obtain ⟨ha, hb, hresults⟩ := List.forall_mem_cons.mp hresults |>.imp_right List.forall_mem_cons.mp
    exact ⟨hrest, List.forall_mem_cons.mpr ⟨h.and ha hb, hresults⟩, hm.query⟩
  · cases hstep
    obtain ⟨ha, hb, hresults⟩ := List.forall_mem_cons.mp hresults |>.imp_right List.forall_mem_cons.mp
    exact ⟨hrest, List.forall_mem_cons.mpr ⟨h.or ha hb, hresults⟩, hm.query⟩
  · cases hstep
    obtain ⟨ha, hresults⟩ := List.forall_mem_cons.mp hresults
    exact ⟨hrest, List.forall_mem_cons.mpr ⟨h.not ha, hresults⟩, hm.query⟩
  · cases hstep
    exact ⟨hrest, List.forall_mem_cons.mpr ⟨h.literal true, hresults⟩, hm.query⟩
  · cases hstep
    exact ⟨hrest, List.forall_mem_cons.mpr ⟨h.literal false, hresults⟩, hm.query⟩
  · rename_i l htoken
    obtain ⟨next', t₁, hreduce, hpure⟩ := Run.gives_bind.mp hstep
    cases hpure
    rw [show item = ⟨.leaf l, item.place⟩ from htoken ▸ rfl] at hitem
    exact take_keeps ⟨hrest, hresults, hm.query⟩ (h.reduce hitem hreduce)
  · cases hstep

end Machine
end

/-! ### Records out of use -/

section
variable {r : Registry} {ctx : Context} {m : Model} {d e : Domain}

/-- Where records out of use are left out, the domain stays as it is, or the one leaf that asks for the others is put in
    front. -/
theorem withActive_eq_ok (h : withActive r ctx m d = .ok e) : e = d ∨ ∃ active, r.activeField? m = some active ∧
    Domain.allOf [Domain.ofLeaf active .eq (.value (.bool true)), d] = .ok e := by
  unfold withActive at h
  split at h
  · split at h
    · cases h
      exact .inl rfl
    · rename_i active hactive
      split at h
      · cases h
        exact .inl rfl
      · exact .inr ⟨active, hactive, h⟩
  · cases h
    exact .inl rfl

theorem of_mem_leaves_withActive (h : withActive r ctx m d = .ok e) {l : Leaf} (hl : l ∈ e.leaves) :
    l ∈ d.leaves ∨ ∃ active, r.activeField? m = some active ∧ l = ⟨active, .eq, .value (.bool true)⟩ := by
  rcases withActive_eq_ok h with rfl | ⟨active, hactive, hall⟩
  · exact .inl hl
  · obtain ⟨d', hd', hl⟩ := Domain.of_mem_leaves_allOf hall hl
    rcases List.mem_cons.mp hd' with rfl | hd'
    · exact .inr ⟨active, hactive, List.mem_singleton.mp hl⟩
    · rw [List.mem_singleton.mp hd'] at hl
      exact .inl hl

/-- No leaf of the domain is lost. -/
theorem mem_leaves_withActive (h : withActive r ctx m d = .ok e) {l : Leaf} (hl : l ∈ d.leaves) : l ∈ e.leaves := by
  rcases withActive_eq_ok h with rfl | ⟨active, -, hall⟩
  · exact hl
  · refine Domain.mem_leaves_allOf hall ?_ (List.mem_cons_of_mem _ (List.mem_singleton_self d)) hl
    intro d' hd' hnil
    rcases List.mem_cons.mp hd' with rfl | hd'
    · cases hnil
    · obtain rfl := List.mem_singleton.mp hd'
      rw [hnil] at hl
      cases hl

end

end Compile
end RecordFilter
