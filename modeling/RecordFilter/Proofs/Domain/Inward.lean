import RecordFilter.Domain.Negation
import RecordFilter.Proofs.Domain.Terms

/-! Moving negations inward. The scan with its row of pending negations is the recursion `Term.inward`
    over the term that the domain spells, so it keeps the meaning, and no negation is left in front of
    anything but a leaf whose operator has no opposite. -/

namespace RecordFilter

/-- What a leaf is about, whatever its operator. -/
def Leaf.subject (l : Leaf) : String × Operand := (l.left, l.right)

namespace Term

/-- A leaf under a negation. -/
def negateLeaf (l : Leaf) : Term Leaf :=
  match l.op.negate? with
  | some op => leaf { l with op := op }
  | none => not (leaf l)

/-- A term, negated or not, with its negations moved to the leaves. -/
def inward : Bool → Term Leaf → Term Leaf
  | negated, const b => const (b != negated)
  | negated, leaf l => if negated then negateLeaf l else leaf l
  | negated, not t => t.inward (!negated)
  | negated, and a b => if negated then or (a.inward true) (b.inward true) else and (a.inward false) (b.inward false)
  | negated, or a b => if negated then and (a.inward true) (b.inward true) else or (a.inward false) (b.inward false)

end Term

namespace Domain

/-- Every `!` stands before a leaf whose operator has no opposite. -/
def NegatesLeaves (d : Domain) : Prop :=
  ∀ front rest, d = front ++ .not :: rest → ∃ l tail, rest = .leaf l :: tail ∧ l.op.negate? = none

/-- The leaf and the leaf with the opposite operator, where there is one, have opposite values. -/
def Opposed (v : Leaf → Bool) (l : Leaf) : Prop :=
  ∀ op, l.op.negate? = some op → v { l with op := op } = !v l

/-! ### The scan is the recursion -/

theorem negateLeaf_eq (l : Leaf) : negateLeaf l = (Term.negateLeaf l).spell := by
  unfold negateLeaf Term.negateLeaf
  cases l.op.negate? <;> rfl

/-- The pending negations belong to the terms still to come: reading a term uses up the first one. -/
theorem push_spell (t : Term Leaf) (negated : Bool) (pending : List Bool) (rest : Domain) :
    push (negated :: pending) (t.spell ++ rest) = (push pending rest).map ((t.inward negated).spell ++ ·) := by
  induction t generalizing negated pending rest with
  | const b => cases b <;> cases negated <;> rfl
  | leaf l =>
    show (push pending rest).map ((if negated then negateLeaf l else [.leaf l]) ++ ·) = _
    cases negated
    · rfl
    · rw [negateLeaf_eq]
      rfl
  | not t ih => exact ih (!negated) pending rest
  | and a b iha ihb | or a b iha ihb =>
    -- The negation of the operator is that of both parts, and both are pending.
    show (push (negated :: negated :: pending) (a.spell ++ b.spell ++ rest)).map
      ((if negated then _ else _) :: ·) = _
    rw [List.append_assoc, iha, ihb]
    cases negated <;> cases push pending rest <;> simp [Except.map, Term.inward, Term.spell]

theorem distributeNot_of_terms? {d : Domain} {ts : List (Term Leaf)} (h : terms? d = some ts) :
    distributeNot d = .ok ((Term.conj ts).inward false).spell := by
  have hpush := push_spell (Term.conj ts) false [] []
  rw [List.append_nil] at hpush
  rw [distributeNot, normalize_of_terms? h]
  show push [false] (Term.conj ts).spell = _
  rw [hpush]
  simp [push, Except.map]

theorem distributeNot_eq_ok {d e : Domain} (h : distributeNot d = .ok e) :
    ∃ ts, terms? d = some ts ∧ e = ((Term.conj ts).inward false).spell := by
  cases hn : normalize d with
  | error err => simp [distributeNot, hn] at h
  | ok n =>
    obtain ⟨ts, hts, -⟩ := normalize_eq_ok hn
    rw [distributeNot_of_terms? hts] at h
    exact ⟨ts, hts, (Except.ok.inj h).symm⟩

/-- Only normalizing can fail. -/
theorem distributeNot_eq_error {d : Domain} {err : Error} :
    distributeNot d = .error err ↔ normalize d = .error err := by
  cases hn : normalize d with
  | error err' => simp [distributeNot, hn]
  | ok n =>
    obtain ⟨ts, hts, -⟩ := normalize_eq_ok hn
    simp [distributeNot_of_terms? hts]

/-! ### What the recursion keeps -/

theorem subjects_inward (t : Term Leaf) (negated : Bool) :
    (t.inward negated).leaves.map Leaf.subject = t.leaves.map Leaf.subject := by
  induction t generalizing negated with
  | const b => rfl
  | leaf l =>
    cases negated
    · rfl
    · show (Term.negateLeaf l).leaves.map Leaf.subject = _
      unfold Term.negateLeaf
      cases l.op.negate? <;> rfl
  | not t ih => exact ih (!negated)
  | and a b iha ihb | or a b iha ihb => cases negated <;> simp [Term.inward, Term.leaves, iha, ihb]

/-- The leaves of a term whose negations are moved inward are its own, some with the opposite operator. -/
theorem of_mem_leaves_inward {t : Term Leaf} {negated : Bool} {l : Leaf} (h : l ∈ (t.inward negated).leaves) :
    l ∈ t.leaves ∨ ∃ l' ∈ t.leaves, ∃ op, l'.op.negate? = some op ∧ l = { l' with op := op } := by
  induction t generalizing negated with
  | const b => cases h
  | leaf l' =>
    cases negated
    · exact Or.inl h
    · replace h : l ∈ (Term.negateLeaf l').leaves := h
      unfold Term.negateLeaf at h
      split at h
      · rename_i op hop
        exact Or.inr ⟨l', List.mem_singleton_self l', op, hop, List.mem_singleton.mp h⟩
      · exact Or.inl h
  | not t ih => exact ih h
  | and a b iha ihb | or a b iha ihb =>
    have hmem : l ∈ (a.inward negated).leaves ++ (b.inward negated).leaves := by cases negated <;> exact h
    rcases List.mem_append.mp hmem with hl | hl
    · exact (iha hl).imp (List.mem_append_left _) fun ⟨l', hl', hop⟩ => ⟨l', List.mem_append_left _ hl', hop⟩
    · exact (ihb hl).imp (List.mem_append_right _) fun ⟨l', hl', hop⟩ => ⟨l', List.mem_append_right _ hl', hop⟩

/-- No leaf is lost when negations are moved inward: it stays, or turns up with the opposite operator. -/
theorem mem_leaves_inward {t : Term Leaf} (negated : Bool) {l : Leaf} (h : l ∈ t.leaves) :
    l ∈ (t.inward negated).leaves ∨
      ∃ op, l.op.negate? = some op ∧ { l with op := op } ∈ (t.inward negated).leaves := by
  induction t generalizing negated with
  | const b => cases h
  | leaf l' =>
    obtain rfl := List.mem_singleton.mp h
    cases negated
    · exact Or.inl (List.mem_singleton_self l)
    · show l ∈ (Term.negateLeaf l).leaves ∨ ∃ op, _ ∧ _ ∈ (Term.negateLeaf l).leaves
      unfold Term.negateLeaf
      split
      · rename_i op hop
        exact Or.inr ⟨op, hop, List.mem_singleton_self _⟩
      · exact Or.inl (List.mem_singleton_self l)
  | not t ih => exact ih (!negated) h
  | and a b iha ihb | or a b iha ihb =>
    rcases List.mem_append.mp h with h | h
    · rcases iha negated h with hl | ⟨op, hop, hl⟩
      · exact Or.inl (by cases negated <;> exact List.mem_append_left _ hl)
      · exact Or.inr ⟨op, hop, by cases negated <;> exact List.mem_append_left _ hl⟩
    · rcases ihb negated h with hl | ⟨op, hop, hl⟩
      · exact Or.inl (by cases negated <;> exact List.mem_append_right _ hl)
      · exact Or.inr ⟨op, hop, by cases negated <;> exact List.mem_append_right _ hl⟩

/-- Where every leaf has an opposite, no negation is left. -/
theorem positive_inward {t : Term Leaf} {negated : Bool} (h : ∀ l ∈ t.leaves, ∃ op, l.op.negate? = some op) :
    (t.inward negated).Positive := by
  induction t generalizing negated with
  | const b => trivial
  | leaf l =>
    cases negated
    · trivial
    · obtain ⟨op, hop⟩ := h l (List.mem_singleton_self l)
      show (Term.negateLeaf l).Positive
      simp [Term.negateLeaf, hop, Term.Positive]
  | not t ih => exact ih h
  | and a b iha ihb | or a b iha ihb =>
    have ha : (a.inward negated).Positive := iha fun l hl => h l (List.mem_append_left _ hl)
    have hb : (b.inward negated).Positive := ihb fun l hl => h l (List.mem_append_right _ hl)
    cases negated <;> exact ⟨ha, hb⟩

/-- Without negations, nothing is moved. -/
theorem inward_of_positive {t : Term Leaf} (h : t.Positive) : t.inward false = t := by
  induction t with
  | const b => simp [Term.inward]
  | leaf l => rfl
  | not t _ => cases h
  | and a b iha ihb | or a b iha ihb => simp [Term.inward, iha h.1, ihb h.2]

theorem distributeNot_of_positive {t : Term Leaf} (h : t.Positive) : distributeNot t.spell = .ok t.spell := by
  rw [distributeNot_of_terms? (terms?_spell t)]
  show Except.ok (t.inward false).spell = _
  rw [inward_of_positive h]

/-- Where every leaf has an opposite, moving negations inward adds no token. -/
theorem length_inward_le {t : Term Leaf} {negated : Bool} (h : ∀ l ∈ t.leaves, ∃ op, l.op.negate? = some op) :
    (t.inward negated).spell.length ≤ t.spell.length := by
  induction t generalizing negated with
  | const b => exact Nat.le_refl 1
  | leaf l =>
    cases negated
    · exact Nat.le_refl 1
    · obtain ⟨op, hop⟩ := h l (List.mem_singleton_self l)
      show (Term.negateLeaf l).spell.length ≤ 1
      simp [Term.negateLeaf, hop, Term.spell]
  | not t ih => exact Nat.le_succ_of_le (ih h)
  | and a b iha ihb | or a b iha ihb =>
    have ha : (a.inward negated).spell.length ≤ a.spell.length := iha fun l hl => h l (List.mem_append_left _ hl)
    have hb : (b.inward negated).spell.length ≤ b.spell.length := ihb fun l hl => h l (List.mem_append_right _ hl)
    cases negated <;>
      simp only [Term.inward, Bool.false_eq_true, if_false, if_true, Term.spell, List.length_cons, List.length_append] <;>
      omega

theorem inward_inward (t : Term Leaf) (negated : Bool) : (t.inward negated).inward false = t.inward negated := by
  induction t generalizing negated with
  | const b => simp [Term.inward]
  | leaf l =>
    cases negated
    · rfl
    · show (Term.negateLeaf l).inward false = Term.negateLeaf l
      unfold Term.negateLeaf
      split
      · rfl
      · rename_i h
        show Term.negateLeaf l = _
        simp [Term.negateLeaf, h]
  | not t ih => exact ih (!negated)
  | and a b iha ihb | or a b iha ihb => cases negated <;> simp [Term.inward, iha, ihb]

/-- Moving negations inward once more changes nothing. -/
theorem distributeNot_spell_inward (t : Term Leaf) (negated : Bool) :
    distributeNot (t.inward negated).spell = .ok (t.inward negated).spell := by
  rw [distributeNot_of_terms? (terms?_spell _)]
  exact congrArg (fun t => Except.ok t.spell) (inward_inward t negated)

/-- A negated term has the opposite value, when the leaves in it have opposite values to theirs. -/
theorem eval_inward {v : Leaf → Bool} (t : Term Leaf) (negated : Bool) (h : ∀ l ∈ t.leaves, Opposed v l) :
    (t.inward negated).eval v = (t.eval v != negated) := by
  induction t generalizing negated with
  | const b => rfl
  | leaf l =>
    cases negated
    · simp [Term.inward, Term.eval]
    · have hl := h l (List.mem_singleton_self l)
      show (Term.negateLeaf l).eval v = _
      unfold Term.negateLeaf
      split
      · rename_i op hop
        simp [Term.eval, hl op hop]
      · simp [Term.eval]
  | not t ih =>
    show (t.inward (!negated)).eval v = _
    rw [ih (!negated) h]
    cases negated <;> simp [Term.eval]
  | and a b iha ihb | or a b iha ihb =>
    have ha := fun negated => iha negated fun l hl => h l (List.mem_append_left _ hl)
    have hb := fun negated => ihb negated fun l hl => h l (List.mem_append_right _ hl)
    cases negated <;> simp [Term.inward, Term.eval, ha, hb]

theorem negatesLeaves_append {a b : Domain} (ha : NegatesLeaves a) (hb : NegatesLeaves b) :
    NegatesLeaves (a ++ b) := by
  intro front rest h
  rcases List.append_eq_append_iff.mp h with ⟨mid, rfl, hmid⟩ | ⟨mid, rfl, hmid⟩
  · exact hb mid rest hmid
  · -- The `!` is the first token of `b`, or stands in `a`.
    cases mid with
    | nil => exact hb [] rest hmid.symm
    | cons token mid =>
      obtain ⟨rfl, rfl⟩ := List.cons.inj hmid
      obtain ⟨l, tail, rfl, hl⟩ := ha front mid rfl
      exact ⟨l, tail ++ b, rfl, hl⟩

theorem negatesLeaves_singleton {token : Token} (h : token ≠ .not) : NegatesLeaves [token] := by
  intro front rest heq
  have hmem : Token.not ∈ [token] := heq ▸ List.mem_append_right front List.mem_cons_self
  exact absurd (List.mem_singleton.mp hmem).symm h

theorem negatesLeaves_inward (t : Term Leaf) (negated : Bool) : NegatesLeaves (t.inward negated).spell := by
  -- An operator before two parts that are as they should be.
  have two : ∀ {op : Token} {a b : Domain}, op ≠ .not → NegatesLeaves a → NegatesLeaves b →
      NegatesLeaves (op :: (a ++ b)) :=
    fun hop ha hb => negatesLeaves_append (negatesLeaves_singleton hop) (negatesLeaves_append ha hb)
  induction t generalizing negated with
  | const b => cases b <;> cases negated <;> exact negatesLeaves_singleton (by simp)
  | leaf l =>
    cases negated
    · exact negatesLeaves_singleton (by simp)
    · show NegatesLeaves (Term.negateLeaf l).spell
      unfold Term.negateLeaf
      split
      · exact negatesLeaves_singleton (by simp)
      · rename_i hop
        intro front rest h
        cases front with
        | nil =>
          cases h
          exact ⟨l, [], rfl, hop⟩
        | cons token front =>
          have hrest : [Token.leaf l] = front ++ .not :: rest := (List.cons.inj h).2
          exact negatesLeaves_singleton (by simp) front rest hrest
  | not t ih => exact ih (!negated)
  | and a b iha ihb | or a b iha ihb => cases negated <;> exact two (by simp) (iha _) (ihb _)

/-! ### The whole -/

/-- Distributing negations fails only where normalizing does. Its result is one term that both leave as
    it is, with the same fields and operands in the same order, with a `!` only before leaves that need
    one, and with the same value wherever a leaf and its opposite have opposite values. -/
theorem distributeNot_inward (d : Domain) :
    (∀ err, distributeNot d = .error err ↔ normalize d = .error err) ∧
    ∀ e, distributeNot d = .ok e →
      (∃ t : Term Leaf, e = t.spell) ∧ NegatesLeaves e ∧
      e.leaves.map Leaf.subject = d.leaves.map Leaf.subject ∧
      distributeNot e = .ok e ∧ normalize e = .ok e ∧
      ∀ v, (∀ l ∈ d.leaves, Opposed v l) → ∃ b, value? v d = some b ∧ value? v e = some b := by
  refine ⟨fun err => distributeNot_eq_error, fun e he => ?_⟩
  obtain ⟨ts, hts, rfl⟩ := distributeNot_eq_ok he
  have hleaves := leaves_of_terms? hts
  have hread := terms?_spell ((Term.conj ts).inward false)
  refine ⟨⟨_, rfl⟩, negatesLeaves_inward _ _, ?_, ?_, normalize_spell _, fun v hv => ?_⟩
  · rw [Term.leaves_spell, subjects_inward, hleaves]
  · rw [distributeNot_of_terms? hread]
    exact congrArg (fun t => Except.ok t.spell) (inward_inward _ false)
  · refine ⟨_, value?_of_terms? hts v, ?_⟩
    rw [value?_of_terms? hread v]
    show some (((Term.conj ts).inward false).eval v) = _
    rw [eval_inward _ false (hleaves ▸ hv), Bool.bne_false]

/-- A `!` before a disjunction of a leaf and one whose operator has no opposite. -/
theorem distributeNot_inward_or :
    let d : Domain := [.not, .or, .leaf ⟨"a", .eq, .value .null⟩, .leaf ⟨"b", .eqLike, .value (.str "x%")⟩]
    let v : Leaf → Bool := fun l => l.op = .eq
    ∃ e, distributeNot d = .ok e ∧ (∀ l ∈ d.leaves, Opposed v l) ∧ ∃ b, value? v d = some b ∧ value? v e = some b := by
  intro d v
  have opposed : ∀ l ∈ d.leaves, Opposed v l := by
    intro l hl op hop
    rcases List.mem_cons.mp hl with rfl | hl
    · cases hop
      rfl
    · rw [List.mem_singleton.mp hl] at hop
      cases hop
  exact ⟨_, rfl, opposed, ((distributeNot_inward d).2 _ rfl).2.2.2.2.2 v opposed⟩

end Domain
end RecordFilter
