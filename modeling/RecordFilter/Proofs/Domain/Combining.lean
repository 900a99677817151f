import Mathlib.Data.List.Forall2
import RecordFilter.Proofs.Domain.Leaves

/-! Conjunctions and disjunctions of several domains. Both search through the domains alike: they pass over those that
    do not count, stop at the first one that decides, and normalize the others, which can fail. What is found they join
    to one term. In a conjunction empty domains do not count because they always hold; a disjunction leaves them out
    too, and is the disjunction of the others. -/

namespace RecordFilter.Domain

variable {skip decide : Domain → Bool} {ds ns : List Domain} {us : List (Term Leaf)}

theorem isAlways_iff {d : Domain} : d.isAlways = true ↔ d = always := by
  unfold isAlways always
  split <;> simp_all

theorem isNever_iff {d : Domain} : d.isNever = true ↔ d = never := by
  unfold isNever never
  split <;> simp_all

/-! ### Searching -/

/-- Whether a domain is normalized where it comes up. -/
def counts (skip : Domain → Bool) (d : Domain) : Bool := !skip d && !d.isEmpty

/-- A domain that cannot be normalized comes before all that decide. -/
def FailsFirst (decide : Domain → Bool) (ds : List Domain) : Prop :=
  ∃ front d rest, ds = front ++ d :: rest ∧ (∀ f ∈ front, decide f = false) ∧ decide d = false ∧ ∀ n, normalize d ≠ .ok n

theorem failsFirst_nil : ¬FailsFirst decide [] := by
  rintro ⟨front, d, rest, h, -⟩
  cases front <;> cases h

theorem failsFirst_cons {d : Domain} :
    FailsFirst decide (d :: ds) ↔ decide d = false ∧ ((∀ n, normalize d ≠ .ok n) ∨ FailsFirst decide ds) := by
  constructor
  · rintro ⟨front, d', rest, heq, hfront, hd', hfails⟩
    cases front with
    | nil =>
      cases heq
      exact ⟨hd', .inl hfails⟩
    | cons f front =>
      cases heq
      obtain ⟨hd, hfront⟩ := List.forall_mem_cons.mp hfront
      exact ⟨hd, .inr ⟨front, d', rest, rfl, hfront, hd', hfails⟩⟩
  · rintro ⟨hd, hfails | ⟨front, d', rest, rfl, hfront, hd', hfails⟩⟩
    · exact ⟨[], d, ds, rfl, nofun, hd, hfails⟩
    · exact ⟨d :: front, d', rest, rfl, List.forall_mem_cons.mpr ⟨hd, hfront⟩, hd', hfails⟩

/-- A search fails just where a domain that cannot be normalized comes before all that decide, if those that are passed
    over neither decide nor fail. -/
theorem members_error_iff (hskip : ∀ d, skip d = true → decide d = false ∧ ∃ n, normalize d = .ok n) :
    (∃ err, members skip decide ds = .error err) ↔ FailsFirst decide ds := by
  -- After a domain that neither decides nor fails it depends on the others.
  have later : ∀ {d : Domain} {ds n}, decide d = false → normalize d = .ok n →
      (FailsFirst decide (d :: ds) ↔ FailsFirst decide ds) := by
    intro d ds n hd hn
    simp [failsFirst_cons, hd, hn]
  fun_induction members skip decide ds with
  | case1 => exact iff_of_false (by simp) failsFirst_nil
  | case2 d rest hs ih =>
    obtain ⟨hd, n, hn⟩ := hskip d hs
    exact ih.trans (later hd hn).symm
  | case3 d rest hs hd => exact iff_of_false (by simp) (by simp [failsFirst_cons, hd])
  | case4 d rest hs hd hempty ih =>
    have hn : normalize d = .ok always := by
      rw [List.isEmpty_iff.mp hempty]
      rfl
    exact ih.trans (later (Bool.eq_false_iff.mpr hd) hn).symm
  | case5 d rest hs hd hempty err hn =>
    refine iff_of_true ⟨err, rfl⟩ (failsFirst_cons.mpr ⟨Bool.eq_false_iff.mpr hd, .inl fun n h => ?_⟩)
    rw [hn] at h
    cases h
  | case6 d rest hs hd hempty n hn err herr ih =>
    rw [herr] at ih
    exact ih.trans (later (Bool.eq_false_iff.mpr hd) hn).symm
  | case7 d rest hs hd hempty n hn hnone ih =>
    rw [hnone] at ih
    exact Iff.trans (by simp) (ih.trans (later (Bool.eq_false_iff.mpr hd) hn).symm)
  | case8 d rest hs hd hempty n hn ns hns ih =>
    rw [hns] at ih
    exact Iff.trans (by simp) (ih.trans (later (Bool.eq_false_iff.mpr hd) hn).symm)

/-- The term that a domain normalizes to. -/
def ReadsAs (d : Domain) (u : Term Leaf) : Prop := ∃ ts, terms? d = some ts ∧ u = Term.conj ts

theorem ReadsAs.value? {d : Domain} {u : Term Leaf} (h : d.ReadsAs u) (v : Leaf → Bool) : value? v d = some (u.eval v) := by
  obtain ⟨ts, hts, rfl⟩ := h
  exact value?_of_terms? hts v

/-- A search that does not stop has met no domain that decides, and found the terms of those that count. -/
theorem members_eq_some (h : members skip decide ds = .ok (some ns)) :
    (∀ d ∈ ds, skip d = true ∨ decide d = false) ∧
      ∃ us, ns = us.map Term.spell ∧ List.Forall₂ ReadsAs (ds.filter (counts skip)) us := by
  fun_induction members skip decide ds generalizing ns with
  | case1 =>
    cases h
    exact ⟨nofun, [], rfl, .nil⟩
  | case2 d rest hs ih =>
    obtain ⟨hdecide, us, rfl, hus⟩ := ih h
    refine ⟨List.forall_mem_cons.mpr ⟨.inl hs, hdecide⟩, us, rfl, ?_⟩
    rwa [List.filter_cons_of_neg (by simp [counts, hs])]
  | case3 => cases h
  | case4 d rest hs hd hempty ih =>
    obtain ⟨hdecide, us, rfl, hus⟩ := ih h
    refine ⟨List.forall_mem_cons.mpr ⟨.inr (Bool.eq_false_iff.mpr hd), hdecide⟩, us, rfl, ?_⟩
    rwa [List.filter_cons_of_neg (by simp [counts, hempty])]
  | case5 => cases h
  | case6 => cases h
  | case7 => cases h
  | case8 d rest hs hd hempty n hn ns' hns ih =>
    cases h
    obtain ⟨hdecide, us, rfl, hus⟩ := ih hns
    obtain ⟨ts, hts, rfl⟩ := normalize_eq_ok hn
    refine ⟨List.forall_mem_cons.mpr ⟨.inr (Bool.eq_false_iff.mpr hd), hdecide⟩, Term.conj ts :: us, rfl, ?_⟩
    rw [List.filter_cons_of_pos (by simp [counts, hs, hempty])]
    exact .cons ⟨ts, hts, rfl⟩ hus

theorem all_reads (h : List.Forall₂ ReadsAs ds us) (v : Leaf → Bool) :
    us.all (Term.eval v) = true ↔ ∀ d ∈ ds, value? v d = some true := by
  induction h with
  | nil => simp
  | cons hd _ ih => simp [hd.value?, ← ih]

theorem any_reads (h : List.Forall₂ ReadsAs ds us) (v : Leaf → Bool) :
    us.any (Term.eval v) = true ↔ ∃ d ∈ ds, value? v d = some true := by
  induction h with
  | nil => simp
  | cons hd _ ih => simp [hd.value?, ← ih]

/-! ### Joining -/

/-- Terms with one operator fewer in front of them spell the term that combines them from the left. -/
theorem joined_spell {token : Token} {op : Term Leaf → Term Leaf → Term Leaf}
    (hput : ∀ a b ts, Term.put? id token (a :: b :: ts) = some (op a b :: ts)) (unit : Domain) (t : Term Leaf)
    (ts : List (Term Leaf)) : joined token unit ((t :: ts).map Term.spell) = (ts.foldl op t).spell := by
  have hspell := eq_spell_of_terms? (terms?_replicate hput (terms?_flatMap_spell (t :: ts)))
  rw [List.flatMap_singleton, List.flatMap_def] at hspell
  rw [← hspell, joined]
  · rw [List.length_map, List.length_cons, Nat.add_sub_cancel]
  · exact nofun

theorem joined_and (us : List (Term Leaf)) : joined .and always (us.map Term.spell) = (Term.conj us).spell := by
  cases us with
  | nil => rfl
  | cons t ts => exact joined_spell (fun _ _ _ => rfl) always t ts

theorem joined_or (us : List (Term Leaf)) : joined .or never (us.map Term.spell) = (Term.disj us).spell := by
  cases us with
  | nil => rfl
  | cons t ts => exact joined_spell (fun _ _ _ => rfl) never t ts

theorem value?_spell (v : Leaf → Bool) (t : Term Leaf) : value? v t.spell = some (t.eval v) :=
  value?_of_terms? (terms?_spell t) v

/-! ### Conjunctions -/

theorem allOf_error_iff :
    (∃ err, allOf ds = .error err) ↔
      ∃ front d rest, ds = front ++ d :: rest ∧ never ∉ front ∧ d ≠ [] ∧ ∀ n, normalize d ≠ .ok n := by
  have hmembers : (∃ err, allOf ds = .error err) ↔ ∃ err, members isAlways isNever ds = .error err := by
    unfold allOf
    split <;> simp_all
  have hskip : ∀ d, isAlways d = true → isNever d = false ∧ ∃ n, normalize d = .ok n := by
    intro d hd
    rw [isAlways_iff.mp hd]
    exact ⟨rfl, _, rfl⟩
  have hfront : ∀ front : List Domain, (∀ f ∈ front, isNever f = false) ↔ never ∉ front := by
    intro front
    simp only [Bool.eq_false_iff, ne_eq, isNever_iff]
    exact ⟨fun h hmem => h _ hmem rfl, fun h f hf heq => h (heq ▸ hf)⟩
  rw [hmembers, members_error_iff hskip]
  refine exists_congr fun front => exists_congr fun d => exists_congr fun rest => and_congr_right fun _ => ?_
  rw [hfront]
  refine and_congr_right fun _ => and_congr_left fun hfails => iff_of_true ?_ ?_
  · refine Bool.eq_false_iff.mpr fun hnever => hfails never ?_
    rw [isNever_iff.mp hnever]
    rfl
  · rintro rfl
    exact hfails always rfl

/-- A conjunction is one term, that of the domains that count, or the constant that never holds if that is among the
    domains. -/
theorem allOf_eq_ok {e : Domain} (h : allOf ds = .ok e) :
    never ∈ ds ∧ e = never ∨
      never ∉ ds ∧ ∃ us, e = (Term.conj us).spell ∧ List.Forall₂ ReadsAs (ds.filter (counts isAlways)) us := by
  unfold allOf at h
  split at h <;> cases h
  · rename_i hnone
    obtain ⟨d, hd, hdecide⟩ := members_eq_none hnone
    rw [isNever_iff.mp hdecide] at hd
    exact .inl ⟨hd, rfl⟩
  · rename_i ns hns
    obtain ⟨hdecide, us, rfl, hus⟩ := members_eq_some hns
    refine .inr ⟨fun hmem => ?_, us, joined_and us, hus⟩
    rcases hdecide never hmem with hnever | hnever <;> cases hnever

/-- Conjoining fails just where a domain that is not empty and cannot be normalized comes before all that are the
    constant `never`. Otherwise it gives one term in normal form, which holds where every domain holds: an empty one
    always does, and with `never` among them none of the others matters. -/
theorem allOf_conjunction (ds : List Domain) :
    ((∃ err, allOf ds = .error err) ↔
      ∃ front d rest, ds = front ++ d :: rest ∧ never ∉ front ∧ d ≠ [] ∧ ∀ n, normalize d ≠ .ok n) ∧
    ∀ e, allOf ds = .ok e →
      (∃ t : Term Leaf, e = t.spell) ∧ normalize e = .ok e ∧ (never ∈ ds → e = never) ∧
      ∀ v, ∃ b, value? v e = some b ∧ (b = true ↔ ∀ d ∈ ds, value? v d = some true) := by
  refine ⟨allOf_error_iff, fun e he => ?_⟩
  obtain ⟨hmem, rfl⟩ | ⟨hnever, us, rfl, hus⟩ := allOf_eq_ok he
  · refine ⟨⟨.const false, rfl⟩, rfl, fun _ => rfl, fun v => ⟨false, rfl, ?_⟩⟩
    exact iff_of_false nofun fun h => by cases h never hmem
  · refine ⟨⟨_, rfl⟩, normalize_spell _, fun hmem => absurd hmem hnever, fun v => ⟨_, value?_spell v _, ?_⟩⟩
    rw [Term.eval_conj, all_reads hus]
    refine ⟨fun h d hd => ?_, fun h d hd => h d (List.mem_filter.mp hd).1⟩
    -- What does not count holds.
    by_cases hcounts : counts isAlways d = true
    · exact h d (List.mem_filter.mpr ⟨hd, hcounts⟩)
    · have hout : isAlways d = true ∨ d = [] := by simpa [counts, Classical.or_iff_not_imp_left] using hcounts
      rcases hout with halways | rfl
      · rw [isAlways_iff.mp halways]
        rfl
      · rfl

/-- A conjunction with an empty part, a constant and a part of two terms; and one whose last part cannot be normalized,
    but comes too late. Before the constant, it makes the conjunction fail. -/
theorem allOf_conjunction_mixed :
    let a : Leaf := ⟨"a", .eq, .value (.int 1)⟩
    let b : Leaf := ⟨"b", .eq, .value (.int 2)⟩
    let ds : List Domain := [[], [.leaf a], always, [.leaf b, .leaf a]]
    (∃ e, allOf ds = .ok e ∧ normalize e = .ok e ∧
      ∀ v, ∃ x, value? v e = some x ∧ (x = true ↔ ∀ d ∈ ds, value? v d = some true)) ∧
    (never ∈ [[.leaf a], never, [.not]] ∧ allOf [[.leaf a], never, [.not]] = .ok never) ∧
    ∃ err, allOf [[.leaf a], [.not], never] = .error err := by
  intro a b ds
  have hds : allOf ds = .ok [.and, .leaf a, .and, .leaf b, .leaf a] := rfl
  obtain ⟨-, hnormal, -, hvalue⟩ := (allOf_conjunction ds).2 _ hds
  have hnot : ∀ n, normalize [.not] ≠ .ok n := nofun
  refine ⟨⟨_, hds, hnormal, hvalue⟩, ⟨by simp, rfl⟩, (allOf_conjunction _).1.mpr ?_⟩
  exact ⟨[[.leaf a]], [.not], [never], rfl, by simp [never], nofun, hnot⟩

/-! ### Disjunctions -/

/-- A disjunction of domains that can be normalized is a domain too. It holds where one of them holds that is not empty;
    the empty ones are left out, though they always hold. -/
theorem anyOf_disjunction {ds : List Domain} (h : ∀ d ∈ ds, ∃ n, normalize d = .ok n) :
    ∃ e, anyOf ds = .ok e ∧
      ∀ v, ∃ b, value? v e = some b ∧ (b = true ↔ ∃ d ∈ ds, d ≠ [] ∧ value? v d = some true) := by
  have hskip : ∀ d, isNever d = true → isAlways d = false ∧ ∃ n, normalize d = .ok n := by
    intro d hd
    rw [isNever_iff.mp hd]
    exact ⟨rfl, _, rfl⟩
  unfold anyOf
  cases hmembers : members isNever isAlways ds with
  | error err =>
    obtain ⟨front, d, rest, rfl, -, -, hfails⟩ := (members_error_iff hskip).mp ⟨err, hmembers⟩
    obtain ⟨n, hn⟩ := h d (List.mem_append_right _ List.mem_cons_self)
    exact absurd hn (hfails n)
  | ok found =>
    cases found with
    | none =>
      obtain ⟨d, hd, hdecide⟩ := members_eq_none hmembers
      rw [isAlways_iff.mp hdecide] at hd
      exact ⟨always, rfl, fun v => ⟨true, rfl, iff_of_true rfl ⟨always, hd, nofun, rfl⟩⟩⟩
    | some ns =>
      obtain ⟨-, us, rfl, hus⟩ := members_eq_some hmembers
      refine ⟨_, congrArg Except.ok (joined_or us), fun v => ⟨_, value?_spell v _, ?_⟩⟩
      rw [Term.eval_disj, any_reads hus]
      constructor
      · rintro ⟨d, hd, hvalue⟩
        obtain ⟨hd, hcounts⟩ := List.mem_filter.mp hd
        have hne : d ≠ [] := by
          rintro rfl
          simp [counts] at hcounts
        exact ⟨d, hd, hne, hvalue⟩
      · rintro ⟨d, hd, hne, hvalue⟩
        have hnever : isNever d = false := by
          refine Bool.eq_false_iff.mpr fun hnever => ?_
          rw [isNever_iff.mp hnever] at hvalue
          cases hvalue
        exact ⟨d, List.mem_filter.mpr ⟨hd, by simp [counts, hnever, hne]⟩, hvalue⟩

/-- A disjunction with a constant, an empty part and a part of two terms. -/
theorem anyOf_disjunction_mixed :
    let a : Leaf := ⟨"a", .eq, .value (.int 1)⟩
    let b : Leaf := ⟨"b", .eq, .value (.int 2)⟩
    let ds : List Domain := [never, [.leaf a, .leaf b], [], [.not, .leaf a]]
    (∀ d ∈ ds, ∃ n, normalize d = .ok n) ∧
      ∃ e, anyOf ds = .ok e ∧
        ∀ v, ∃ x, value? v e = some x ∧ (x = true ↔ ∃ d ∈ ds, d ≠ [] ∧ value? v d = some true) := by
  intro a b ds
  have hnormal : ∀ d ∈ ds, ∃ n, normalize d = .ok n := by
    intro d hd
    simp only [ds, List.mem_cons, List.not_mem_nil, or_false] at hd
    rcases hd with rfl | rfl | rfl | rfl <;> exact ⟨_, rfl⟩
  exact ⟨hnormal, anyOf_disjunction hnormal⟩

/-- The disjunction of an empty domain, which always holds, never holds. -/
theorem anyOf_drops_empty :
    let d : Domain := []
    (∃ n, normalize d = .ok n) ∧ (∀ v, value? v d = some true) ∧
      ∃ e, anyOf [d] = .ok e ∧ ∀ v, value? v e = some false :=
  ⟨⟨_, rfl⟩, fun _ => rfl, _, rfl, fun _ => rfl⟩

end RecordFilter.Domain
