import RecordFilter.Domain.Emptiness
import RecordFilter.Proofs.Domain.Inward

/-! Domains that are false by themselves: the verdict on a domain is that of the term it spells, and moving
    negations inward keeps it. A term whose verdict is `never` is vain: its constants and its leaves with empty
    sets leave it nothing to hold for. -/

namespace RecordFilter

/-- The verdict on a term, by those on its leaves. -/
def Term.verdict : Term Leaf → Verdict
  | const b => if b then .always else .never
  | leaf l => l.verdict
  | not t => t.verdict.not
  | and a b => a.verdict.and b.verdict
  | or a b => a.verdict.or b.verdict

/-- The term holds for nothing because of its constants and of leaves in `P`. -/
inductive Term.Vain {α : Type} (P : α → Prop) : Term α → Prop
  | const : Vain P (.const false)
  | leaf {a} : P a → Vain P (.leaf a)
  | left {a} (b) : Vain P a → Vain P (.and a b)
  | right (a) {b} : Vain P b → Vain P (.and a b)
  | both {a b} : Vain P a → Vain P b → Vain P (.or a b)

theorem Term.Vain.map {α β : Type} {P : α → Prop} {Q : β → Prop} {f : α → β} {t : Term α} (h : t.Vain P)
    (hf : ∀ a, P a → Q (f a)) : (t.map f).Vain Q := by
  induction h with
  | const => exact .const
  | leaf ha => exact .leaf (hf _ ha)
  | left b _ ih => exact .left _ ih
  | right a _ ih => exact .right _ ih
  | both _ _ iha ihb => exact .both iha ihb

namespace Verdict

@[simp]
theorem not_not (a : Verdict) : a.not.not = a := by cases a <;> rfl

theorem not_and (a b : Verdict) : (a.and b).not = a.not.or b.not := by cases a <;> cases b <;> rfl

theorem not_or (a b : Verdict) : (a.or b).not = a.not.and b.not := by cases a <;> cases b <;> rfl

theorem and_eq_never {a b : Verdict} : a.and b = never ↔ a = never ∨ b = never := by cases a <;> cases b <;> simp [and]

theorem or_eq_never {a b : Verdict} : a.or b = never ↔ a = never ∧ b = never := by cases a <;> cases b <;> simp [or]

end Verdict

namespace Leaf
variable {l : Leaf}

theorem verdict_eq_never : l.verdict = .never ↔ l.op = .within ∧ l.right.isEmptySet = true := by
  unfold verdict
  split
  · rename_i hop
    split <;> simp_all
  · rename_i hop
    split <;> simp_all
  · rename_i hwithin _
    simp_all

/-- The opposite operator has the opposite verdict. -/
theorem verdict_negate {op : Operator} (h : l.op.negate? = some op) : verdict { l with op := op } = l.verdict.not := by
  obtain ⟨left, lop, right⟩ := l
  cases lop <;> cases h <;> simp only [verdict] <;> first | rfl | (split <;> rfl)

theorem verdict_of_negate?_none (h : l.op.negate? = none) : l.verdict = .unknown := by
  obtain ⟨left, lop, right⟩ := l
  cases lop <;> first | rfl | cases h

end Leaf

namespace Domain

/-! ### The verdict on a domain -/

theorem verdicts_spell_append (t : Term Leaf) (d : Domain) :
    verdicts (t.spell ++ d) = (verdicts d).map (t.verdict :: ·) := by
  induction t generalizing d with
  | const b => cases b <;> cases h : verdicts d <;> simp [Term.spell, verdicts, applyToken, h, Except.map, Term.verdict]
  | leaf l => cases h : verdicts d <;> simp [Term.spell, verdicts, applyToken, h, Except.map, Term.verdict]
  | not t ih =>
    rw [Term.spell, List.cons_append, verdicts, ih]
    cases verdicts d <;> rfl
  | and a b iha ihb =>
    rw [Term.spell, List.cons_append, List.append_assoc, verdicts, iha, ihb]
    cases verdicts d <;> rfl
  | or a b iha ihb =>
    rw [Term.spell, List.cons_append, List.append_assoc, verdicts, iha, ihb]
    cases verdicts d <;> rfl

theorem isFalse_of_terms? {d : Domain} {ts : List (Term Leaf)} (h : terms? d = some ts) :
    d.isFalse = .ok ((Term.conj ts).verdict = .never) := by
  have hverdicts := verdicts_spell_append (Term.conj ts) []
  rw [List.append_nil] at hverdicts
  unfold isFalse
  rw [normalize_of_terms? h]
  dsimp only
  rw [hverdicts]
  rfl

/-- A domain is false by itself if the term that it spells is. -/
theorem isFalse_eq_true {d : Domain} (h : d.isFalse = .ok true) :
    ∃ ts, terms? d = some ts ∧ (Term.conj ts).verdict = .never := by
  cases hn : normalize d with
  | error e => simp [isFalse, hn] at h
  | ok n =>
    obtain ⟨ts, hts, -⟩ := normalize_eq_ok hn
    rw [isFalse_of_terms? hts] at h
    exact ⟨ts, hts, of_decide_eq_true (Except.ok.inj h)⟩

/-! ### Moving negations inward -/

theorem verdict_inward (t : Term Leaf) (negated : Bool) :
    (t.inward negated).verdict = if negated then t.verdict.not else t.verdict := by
  induction t generalizing negated with
  | const b => cases b <;> cases negated <;> rfl
  | leaf l =>
    cases negated
    · rfl
    · show (Term.negateLeaf l).verdict = l.verdict.not
      unfold Term.negateLeaf
      split
      · rename_i op hop
        exact Leaf.verdict_negate hop
      · rfl
  | not t ih =>
    show (t.inward (!negated)).verdict = _
    rw [ih]
    cases negated <;> simp [Term.verdict]
  | and a b iha ihb => cases negated <;> simp [Term.inward, Term.verdict, iha, ihb, Verdict.not_and]
  | or a b iha ihb => cases negated <;> simp [Term.inward, Term.verdict, iha, ihb, Verdict.not_or]

theorem isFalse_normalize {d n : Domain} (h : normalize d = .ok n) : n.isFalse = d.isFalse := by
  obtain ⟨ts, hts, rfl⟩ := normalize_eq_ok h
  rw [isFalse_of_terms? hts, isFalse_of_terms? (terms?_spell _)]
  rfl

theorem isFalse_distributeNot {d e : Domain} (h : distributeNot d = .ok e) : e.isFalse = d.isFalse := by
  obtain ⟨ts, hts, rfl⟩ := distributeNot_eq_ok h
  rw [isFalse_of_terms? hts, isFalse_of_terms? (terms?_spell _)]
  show Except.ok (decide (((Term.conj ts).inward false).verdict = .never)) = _
  rw [verdict_inward, if_neg Bool.false_ne_true]

/-- If the term is false by itself, it is vain for leaves that `P` covers where they are false by themselves. -/
def VainIfNever (P : Leaf → Prop) (t : Term Leaf) : Prop :=
  t.verdict = .never → (∀ l ∈ t.leaves, l.verdict = .never → P l) → t.Vain P

theorem VainIfNever.and {P : Leaf → Prop} {a b : Term Leaf} (ha : VainIfNever P a) (hb : VainIfNever P b) :
    VainIfNever P (.and a b) := fun h hP => by
  rcases Verdict.and_eq_never.mp h with h | h
  · exact .left b (ha h fun l hl => hP l (List.mem_append_left _ hl))
  · exact .right a (hb h fun l hl => hP l (List.mem_append_right _ hl))

theorem VainIfNever.or {P : Leaf → Prop} {a b : Term Leaf} (ha : VainIfNever P a) (hb : VainIfNever P b) :
    VainIfNever P (.or a b) := fun h hP => by
  obtain ⟨h, h'⟩ := Verdict.or_eq_never.mp h
  exact .both (ha h fun l hl => hP l (List.mem_append_left _ hl)) (hb h' fun l hl => hP l (List.mem_append_right _ hl))

theorem VainIfNever.leaf {P : Leaf → Prop} (l : Leaf) : VainIfNever P (.leaf l) := fun h hP =>
  .leaf (hP l (List.mem_singleton_self l) h)

/-- A negation that is left stands before a leaf whose verdict is open. -/
theorem VainIfNever.negateLeaf {P : Leaf → Prop} (l : Leaf) : VainIfNever P (Term.negateLeaf l) := by
  unfold Term.negateLeaf
  split
  · exact .leaf _
  · rename_i hop
    intro h _
    rw [Term.verdict, Term.verdict, Leaf.verdict_of_negate?_none hop] at h
    cases h

/-- A term that is false by itself is vain once its negations are moved inward. -/
theorem vainIfNever_inward {P : Leaf → Prop} (t : Term Leaf) (negated : Bool) : VainIfNever P (t.inward negated) := by
  -- Under a negation a conjunction becomes a disjunction, so both forms are needed of the parts.
  induction t generalizing negated with
  | const b =>
    intro h _
    cases b <;> cases negated
    · exact .const
    · cases h
    · cases h
    · exact .const
  | leaf l =>
    cases negated
    · exact .leaf l
    · exact .negateLeaf l
  | not t ih => exact ih (!negated)
  | and a b iha ihb =>
    cases negated
    · exact (iha false).and (ihb false)
    · exact (iha true).or (ihb true)
  | or a b iha ihb =>
    cases negated
    · exact (iha false).or (ihb false)
    · exact (iha true).and (ihb true)

end Domain
end RecordFilter
