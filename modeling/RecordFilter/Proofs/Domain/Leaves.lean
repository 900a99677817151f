import RecordFilter.Domain.Combine
import RecordFilter.Proofs.Domain.Inward

/-! Where the leaves of a domain come from: normalizing, combining and moving negations bring in no field and
    no operand of their own. Of single leaves, a disjunction spells the one term that combines them. -/

namespace RecordFilter.Domain

theorem leaves_append (a b : Domain) : leaves (a ++ b) = leaves a ++ leaves b := List.filterMap_append

theorem leaves_of_normalize {d n : Domain} (h : normalize d = .ok n) : n.leaves = d.leaves := by
  obtain ⟨ts, hts, rfl⟩ := normalize_eq_ok h
  rw [Term.leaves_spell, leaves_of_terms? hts]

/-- A leaf of a domain without inner negations has field and operand of a leaf of the domain. -/
theorem of_mem_leaves_distributeNot {d e : Domain} (h : distributeNot d = .ok e) {l : Leaf} (hl : l ∈ e.leaves) :
    ∃ l' ∈ d.leaves, l'.subject = l.subject := by
  obtain ⟨ts, hts, rfl⟩ := distributeNot_eq_ok h
  have hsubjects := subjects_inward (Term.conj ts) false
  rw [← Term.leaves_spell, ← leaves_of_terms? hts] at hsubjects
  have hmem : l.subject ∈ d.leaves.map Leaf.subject := hsubjects ▸ List.mem_map_of_mem hl
  exact List.mem_map.mp hmem

theorem leaves_replicate_append {op : Token} (hop : op.leaf? = none) (count : Nat) (d : Domain) :
    leaves (List.replicate count op ++ d) = leaves d := by
  induction count with
  | zero => rfl
  | succ count ih =>
    rw [List.replicate_succ, List.cons_append, leaves, List.filterMap_cons, hop]
    exact ih

theorem of_mem_leaves_flatten {ns : List Domain} {l : Leaf} (h : l ∈ leaves ns.flatten) : ∃ n ∈ ns, l ∈ n.leaves := by
  induction ns with
  | nil => cases h
  | cons n rest ih =>
    rw [List.flatten_cons, leaves_append] at h
    rcases List.mem_append.mp h with h | h
    · exact ⟨n, List.mem_cons_self, h⟩
    · obtain ⟨n', hn', hl⟩ := ih h
      exact ⟨n', List.mem_cons_of_mem _ hn', hl⟩

theorem of_mem_members {skip decide : Domain → Bool} {ds ns : List Domain} (h : members skip decide ds = .ok (some ns)) :
    ∀ n ∈ ns, ∃ d ∈ ds, n.leaves = d.leaves := by
  induction ds generalizing ns with
  | nil =>
    cases h
    exact nofun
  | cons d rest ih =>
    have later : ∀ {ns}, members skip decide rest = .ok (some ns) → ∀ n ∈ ns, ∃ d' ∈ d :: rest, n.leaves = d'.leaves := by
      intro ns hns n hn
      obtain ⟨d', hd', hleaves⟩ := ih hns n hn
      exact ⟨d', List.mem_cons_of_mem _ hd', hleaves⟩
    unfold members at h
    split at h
    · exact later h
    · split at h
      · cases h
      · split at h
        · exact later h
        · split at h
          · cases h
          · rename_i hnormal
            split at h
            · cases h
            · cases h
            · rename_i hns
              cases h
              intro n hn
              rcases List.mem_cons.mp hn with rfl | hn
              · exact ⟨d, List.mem_cons_self, leaves_of_normalize hnormal⟩
              · exact later hns n hn

/-- A leaf between the operators is one of the parts. -/
theorem of_mem_leaves_joined {op : Token} (hop : op.leaf? = none) {unit : Domain} (hunit : unit.leaves = [])
    {skip decide : Domain → Bool} {ds ns : List Domain} (hns : members skip decide ds = .ok (some ns)) {l : Leaf}
    (h : l ∈ (joined op unit ns).leaves) : ∃ d ∈ ds, l ∈ d.leaves := by
  unfold joined at h
  split at h
  · rw [hunit] at h
    cases h
  · rw [leaves_replicate_append hop] at h
    obtain ⟨n, hn, hl⟩ := of_mem_leaves_flatten h
    obtain ⟨d, hd, hleaves⟩ := of_mem_members hns n hn
    exact ⟨d, hd, hleaves ▸ hl⟩

theorem of_mem_leaves_anyOf {ds : List Domain} {d : Domain} (h : anyOf ds = .ok d) {l : Leaf} (hl : l ∈ d.leaves) :
    ∃ d' ∈ ds, l ∈ d'.leaves := by
  unfold anyOf at h
  split at h <;> cases h
  · cases hl
  · rename_i hns
    exact of_mem_leaves_joined rfl rfl hns hl

theorem of_mem_leaves_allOf {ds : List Domain} {d : Domain} (h : allOf ds = .ok d) {l : Leaf} (hl : l ∈ d.leaves) :
    ∃ d' ∈ ds, l ∈ d'.leaves := by
  unfold allOf at h
  split at h <;> cases h
  · cases hl
  · rename_i hns
    exact of_mem_leaves_joined rfl rfl hns hl

/-- A search that ends early has come to a domain that decides. -/
theorem members_eq_none {skip decide : Domain → Bool} {ds : List Domain} (h : members skip decide ds = .ok none) :
    ∃ d ∈ ds, decide d = true := by
  induction ds with
  | nil => cases h
  | cons d rest ih =>
    have later : members skip decide rest = .ok none → ∃ d' ∈ d :: rest, decide d' = true := fun h =>
      (ih h).imp fun d' hd' => ⟨List.mem_cons_of_mem _ hd'.1, hd'.2⟩
    unfold members at h
    split at h
    · exact later h
    · split at h
      · exact ⟨d, List.mem_cons_self, ‹_›⟩
      · split at h
        · exact later h
        · split at h
          · cases h
          · split at h
            · cases h
            · exact later ‹_›
            · cases h

/-- A domain that counts is among those found. -/
theorem mem_members {skip decide : Domain → Bool} {ds ns : List Domain} (h : members skip decide ds = .ok (some ns))
    {d : Domain} (hd : d ∈ ds) (hskip : skip d = false) (hne : d ≠ []) : ∃ n ∈ ns, n.leaves = d.leaves := by
  induction ds generalizing ns with
  | nil => cases hd
  | cons d' rest ih =>
    unfold members at h
    split at h
    · rename_i hskip'
      rcases List.mem_cons.mp hd with rfl | hd
      · rw [hskip] at hskip'
        cases hskip'
      · exact ih h hd
    · split at h
      · cases h
      · split at h
        · rename_i hempty
          rcases List.mem_cons.mp hd with rfl | hd
          · exact absurd (List.isEmpty_iff.mp hempty) hne
          · exact ih h hd
        · split at h
          · cases h
          · rename_i n hnormal
            split at h
            · cases h
            · cases h
            · rename_i hns
              cases h
              rcases List.mem_cons.mp hd with rfl | hd
              · exact ⟨n, List.mem_cons_self, leaves_of_normalize hnormal⟩
              · obtain ⟨n', hn', hleaves⟩ := ih hns hd
                exact ⟨n', List.mem_cons_of_mem _ hn', hleaves⟩

theorem mem_leaves_flatten {ns : List Domain} {n : Domain} (hn : n ∈ ns) {l : Leaf} (h : l ∈ n.leaves) :
    l ∈ leaves ns.flatten := by
  obtain ⟨token, htoken, hleaf⟩ := List.mem_filterMap.mp h
  exact List.mem_filterMap.mpr ⟨token, List.mem_flatten.mpr ⟨n, hn, htoken⟩, hleaf⟩

/-- Where no part of a conjunction is the constant that never holds, no leaf is lost. -/
theorem mem_leaves_allOf {ds : List Domain} {d : Domain} (h : allOf ds = .ok d) (hnever : ∀ d' ∈ ds, d' ≠ never)
    {d' : Domain} (hd' : d' ∈ ds) {l : Leaf} (hl : l ∈ d'.leaves) : l ∈ d.leaves := by
  have hne : d' ≠ [] := by
    rintro rfl
    cases hl
  have halways : d'.isAlways = false := by
    unfold isAlways
    split
    · cases hl
    · rfl
  unfold allOf at h
  split at h <;> cases h
  · rename_i hnone
    obtain ⟨d₁, hd₁, hdecide⟩ := members_eq_none hnone
    unfold isNever at hdecide
    split at hdecide
    · exact absurd rfl (hnever _ hd₁)
    · cases hdecide
  · rename_i ns hns
    obtain ⟨n, hn, hleaves⟩ := mem_members hns hd' halways hne
    unfold joined
    split
    · cases hn
    · rw [leaves_replicate_append rfl]
      exact mem_leaves_flatten hn (hleaves ▸ hl)

/-! ### Disjunctions of leaves -/

theorem terms?_leaves (ls : List Leaf) : terms? (ls.map .leaf) = some (ls.map .leaf) := by
  induction ls with
  | nil => rfl
  | cons l ls ih => simp [terms?, ih, Term.put?]

theorem members_leaves {skip decide : Domain → Bool} (hskip : ∀ l, skip [.leaf l] = false)
    (hdecide : ∀ l, decide [.leaf l] = false) (ls : List Leaf) :
    members skip decide (ls.map fun l => [.leaf l]) = .ok (some (ls.map fun l => [.leaf l])) := by
  induction ls with
  | nil => rfl
  | cons l ls ih =>
    have hnormal : normalize [.leaf l] = .ok [.leaf l] := normalize_spell (.leaf l)
    rw [List.map_cons, members, hskip, hdecide, hnormal, ih]
    rfl

/-- The disjunction of some leaves, one term. -/
theorem anyOf_leaves (ls : List Leaf) : anyOf (ls.map fun l => [.leaf l]) = .ok (Term.disj (ls.map .leaf)).spell := by
  unfold anyOf
  rw [members_leaves (fun _ => rfl) fun _ => rfl]
  cases ls with
  | nil => rfl
  | cons l ls =>
    have hput : ∀ a b ts, Term.put? id .or (a :: b :: ts) = some (.or a b :: ts) := fun _ _ _ => rfl
    have hflat : ((l :: ls).map fun l => [Token.leaf l]).flatten = (l :: ls).map Token.leaf := by
      rw [← List.flatMap_def, ← List.map_eq_flatMap]
    have hterms := eq_spell_of_terms? (terms?_replicate hput (terms?_leaves (l :: ls)))
    rw [List.flatMap_singleton, List.length_map] at hterms
    show Except.ok (List.replicate _ _ ++ List.flatten _) = _
    rw [hflat, List.length_map, List.length_cons, Nat.add_sub_cancel, hterms]
    rfl

end RecordFilter.Domain
