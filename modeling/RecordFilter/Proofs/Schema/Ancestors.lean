import Mathlib.Data.List.Chain
import RecordFilter.Proofs.Compile.Delegation

/-! Where a field name can lead. A lookup is cut off after as many levels of parents as there are models and one more, and
    yet it misses no ancestor: a line of parents that comes back to a model can be cut short there, and one that does
    not is no longer than the registry. -/

open Relation (ReflTransGen)

namespace RecordFilter.Registry
variable {r : Registry} {name : String} {m k : Model}

theorem Inherits.has (h : r.Inherits m k) : r.Has k := by
  obtain ⟨parentName, -, -, hparent⟩ := h
  exact ⟨parentName, hparent⟩

/-- A name that is found through parents is a field of an ancestor. -/
theorem ancestor_of_inherited {depth : Nat} (h : (r.inherited? name depth m).isSome) :
    ∃ k, ReflTransGen r.Inherits m k ∧ (k.field? name).isSome := by
  induction depth generalizing m with
  | zero => cases h
  | succ depth ih =>
    obtain ⟨parent, hinherits, hfield | hfound⟩ := inherited?_isSome_iff.mp h
    · exact ⟨parent, .single hinherits, hfield⟩
    · obtain ⟨k, hreach, hfield⟩ := ih hfound
      exact ⟨k, hreach.head hinherits, hfield⟩

/-- An ancestor is reached without passing through a model twice. -/
theorem exists_nodup_line (h : ReflTransGen r.Inherits m k) :
    ∃ line, (m :: line).IsChain r.Inherits ∧ (m :: line).Nodup ∧ (m :: line).getLast? = some k := by
  induction h using ReflTransGen.head_induction_on with
  | refl => exact ⟨[], by simp⟩
  | @head m parent hinherits _ ih =>
    obtain ⟨line, hchain, hnodup, hlast⟩ := ih
    by_cases hmem : m ∈ parent :: line
    · -- The line from the parent comes back to the model: what is left after that will do.
      obtain ⟨before, after, hsplit⟩ := List.append_of_mem hmem
      rw [hsplit] at hchain hnodup hlast
      refine ⟨after, hchain.right_of_append, (List.nodup_append.mp hnodup).2.1, ?_⟩
      simpa [List.getLast?_append] using hlast
    · exact ⟨parent :: line, hchain.cons_cons hinherits, List.nodup_cons.mpr ⟨hmem, hnodup⟩, by simpa using hlast⟩

/-- Along a line of parents the name is found at its end, if not before. -/
theorem inherited?_of_line {line : List Model} (hchain : (m :: line).IsChain r.Inherits) (hne : line ≠ [])
    (hlast : (m :: line).getLast? = some k) (hfield : (k.field? name).isSome) :
    (r.inherited? name line.length m).isSome := by
  induction line generalizing m with
  | nil => exact absurd rfl hne
  | cons parent line ih =>
    obtain ⟨hinherits, hchain⟩ := List.isChain_cons_cons.mp hchain
    rw [List.getLast?_cons_cons] at hlast
    refine inherited?_isSome_iff.mpr ⟨parent, hinherits, ?_⟩
    cases line with
    | nil =>
      obtain rfl : parent = k := by simpa using hlast
      exact .inl hfield
    | cons next line => exact .inr (ih hchain nofun hlast)

theorem has_of_mem_line {line : List Model} (hchain : (m :: line).IsChain r.Inherits) : ∀ k ∈ line, r.Has k := by
  induction line generalizing m with
  | nil => exact nofun
  | cons parent line ih =>
    obtain ⟨hinherits, hchain⟩ := List.isChain_cons_cons.mp hchain
    exact List.forall_mem_cons.mpr ⟨hinherits.has, ih hchain⟩

/-- A field of an ancestor is found through no more levels than there are models. -/
theorem inherited?_of_ancestor (hown : m.field? name = none) (hreach : ReflTransGen r.Inherits m k)
    (hfield : (k.field? name).isSome) : (r.inherited? name r.models.size m).isSome := by
  obtain ⟨line, hchain, hnodup, hlast⟩ := exists_nodup_line hreach
  have hne : line ≠ [] := by
    rintro rfl
    obtain rfl : m = k := by simpa using hlast
    simp [hown] at hfield
  have hlength : line.length ≤ r.models.size := length_le_of_has (List.nodup_cons.mp hnodup).2 (has_of_mem_line hchain)
  exact inherited?_isSome_mono hlength (inherited?_of_line hchain hne hlast hfield)

theorem resolve?_isSome_iff :
    (r.resolve? m name).isSome ↔ ∃ k, ReflTransGen r.Inherits m k ∧ (k.field? name).isSome := by
  unfold resolve?
  cases hown : m.field? name with
  | some f => exact iff_of_true rfl ⟨m, .refl, by simp [hown]⟩
  | none =>
    constructor
    · exact ancestor_of_inherited
    · rintro ⟨k, hreach, hfield⟩
      exact inherited?_isSome_succ (inherited?_of_ancestor hown hreach hfield)

/-- A name leads to the model's own field just where the model has one, and it leads somewhere just where the model or one
    of its ancestors has a field of that name, whatever parents are missing, shared or come back to the model. Where it
    leads to a parent, the parent is registered, the link is the one that the model declares for it, and from there the
    name leads on. -/
theorem resolve?_reaches (r : Registry) (m : Model) (name : String) :
    (∀ f, r.resolve? m name = some (.local f) ↔ m.field? name = some f) ∧
      ((r.resolve? m name).isSome ↔ ∃ k, ReflTransGen r.Inherits m k ∧ (k.field? name).isSome) ∧
      ∀ parent link, r.resolve? m name = some (.inherited parent link) →
        (∃ parentName, (parentName, link) ∈ m.inherits.entries ∧ r.model? parentName = some parent ∧
          (r.Built → parent.name = parentName)) ∧
        (r.resolve? parent name).isSome := by
  refine ⟨fun f => ⟨resolve?_local, fun hf => by rw [resolve?, hf]⟩, resolve?_isSome_iff, fun parent link h => ?_⟩
  obtain ⟨parentName, hmem, hparent⟩ := resolve?_inherited h
  have hpasses : r.PassesOn name m parent := ⟨link, h⟩
  exact ⟨⟨parentName, hmem, hparent, fun hr => hr.name_eq _ (mem_of_lookup hparent)⟩, hpasses.isSome⟩

/-- A partner finds the code of a record through the employee, although partners and employees are parents of each
    other. -/
theorem resolve?_reaches_code :
    let r := Compile.employeeCompiler.registry
    let partner := Compile.partnerOfEmployee
    r.Built ∧ r.resolve? partner "code" = some (.inherited Compile.employeeModel "employee_id") ∧
      (∃ k, ReflTransGen r.Inherits partner k ∧ (k.field? "code").isSome) ∧
      ("employee", "employee_id") ∈ partner.inherits.entries ∧ (r.resolve? Compile.employeeModel "code").isSome := by
  intro r partner
  have hresolve : r.resolve? partner "code" = some (.inherited Compile.employeeModel "employee_id") := rfl
  obtain ⟨-, hreaches, hinherited⟩ := resolve?_reaches r partner "code"
  obtain ⟨⟨parentName, hmem, -, hname⟩, hfound⟩ := hinherited _ _ hresolve
  have hbuilt : r.Built := Compile.valid_employees.built
  have hparent : "employee" = parentName := hname hbuilt
  exact ⟨hbuilt, hresolve, hreaches.mp (by simp [hresolve]), hparent ▸ hmem, hfound⟩

end RecordFilter.Registry
