import RecordFilter.Proofs.Domain.Verdicts
import RecordFilter.Proofs.Sql.Shape

/-! Domains that differ at most in the operands of their leaves. They spell terms of one shape, before and after
    their negations are moved to the leaves. -/

namespace RecordFilter

/-- Two terms of one shape whose leaves are related. -/
inductive Term.Forall₂ {α β : Type} (R : α → β → Prop) : Term α → Term β → Prop
  | const (b : Bool) : Forall₂ R (.const b) (.const b)
  | leaf {a : α} {a' : β} : R a a' → Forall₂ R (.leaf a) (.leaf a')
  | not {t t'} : Forall₂ R t t' → Forall₂ R (.not t) (.not t')
  | and {a b a' b'} : Forall₂ R a a' → Forall₂ R b b' → Forall₂ R (.and a b) (.and a' b')
  | or {a b a' b'} : Forall₂ R a a' → Forall₂ R b b' → Forall₂ R (.or a b) (.or a' b')

/-- The term has the leaf, under a negation or not. -/
inductive Term.Bears {α : Type} : Term α → Bool → α → Prop
  | leaf (a : α) : Bears (.leaf a) false a
  | not {t k a} : Bears t k a → Bears (.not t) true a
  | andLeft {a b k x} : Bears a k x → Bears (.and a b) k x
  | andRight {a b k x} : Bears b k x → Bears (.and a b) k x
  | orLeft {a b k x} : Bears a k x → Bears (.or a b) k x
  | orRight {a b k x} : Bears b k x → Bears (.or a b) k x

/-- Two leaves that differ at most in their operands, and these are related. -/
structure Leaf.Over (S : Operand → Operand → Prop) (l l' : Leaf) : Prop where
  left : l'.left = l.left
  op : l'.op = l.op
  right : S l.right l'.right

/-- Two tokens that differ at most in the operand of a leaf. -/
inductive Token.Over (S : Operand → Operand → Prop) : Token → Token → Prop
  | leaf {l l' : Leaf} : l.Over S l' → Over S (.leaf l) (.leaf l')
  | other {token : Token} : token.leaf? = none → Over S token token

/-- Two domains that differ at most in the operands of leaves. -/
abbrev Domain.Over (S : Operand → Operand → Prop) : Domain → Domain → Prop := List.Forall₂ (Token.Over S)

variable {S : Operand → Operand → Prop}

namespace Leaf.Over
variable {l l' : Leaf}

theorem path (h : l.Over S l') : l'.path = l.path := by rw [Leaf.path, Leaf.path, h.left]

theorem with_op (h : l.Over S l') (op : Operator) : Leaf.Over S { l with op := op } { l' with op := op } :=
  ⟨h.left, rfl, h.right⟩

theorem with_left (h : l.Over S l') (left : String) : Leaf.Over S { l with left := left } { l' with left := left } :=
  ⟨rfl, h.op, h.right⟩

end Leaf.Over

theorem Token.Over.refl (hS : ∀ r, S r r) (token : Token) : token.Over S token := by
  cases token with
  | leaf l => exact .leaf ⟨rfl, rfl, hS l.right⟩
  | _ => exact .other rfl

namespace Domain
variable {d d' : Domain}

theorem Over.refl (hS : ∀ r, S r r) (d : Domain) : Over S d d := List.forall₂_same.mpr fun token _ => .refl hS token

theorem Over.ofLeaf (left : String) (op : Operator) {r r' : Operand} (h : S r r') :
    Over S (ofLeaf left op r) (ofLeaf left op r') := .cons (.leaf ⟨rfl, rfl, h⟩) .nil

/-! ### Terms of one shape -/

theorem Over.put? {token token' : Token} (htoken : token.Over S token') {ts us ts' : List (Term Leaf)}
    (hts : List.Forall₂ (Term.Forall₂ (Leaf.Over S)) ts ts') (h : Term.put? id token ts = some us) :
    ∃ us', Term.put? id token' ts' = some us' ∧ List.Forall₂ (Term.Forall₂ (Leaf.Over S)) us us' := by
  cases htoken with
  | leaf hl =>
    cases h
    exact ⟨_, rfl, .cons (.leaf hl) hts⟩
  | @other token hother =>
    cases token with
    | leaf l => cases hother
    | true =>
      cases h
      exact ⟨_, rfl, .cons (.const true) hts⟩
    | false =>
      cases h
      exact ⟨_, rfl, .cons (.const false) hts⟩
    | not =>
      cases hts with
      | nil => cases h
      | cons ha hrest =>
        cases h
        exact ⟨_, rfl, .cons (.not ha) hrest⟩
    | and =>
      cases hts with
      | nil => cases h
      | cons ha hrest =>
        cases hrest with
        | nil => cases h
        | cons hb hrest =>
          cases h
          exact ⟨_, rfl, .cons (.and ha hb) hrest⟩
    | or =>
      cases hts with
      | nil => cases h
      | cons ha hrest =>
        cases hrest with
        | nil => cases h
        | cons hb hrest =>
          cases h
          exact ⟨_, rfl, .cons (.or ha hb) hrest⟩

theorem Over.terms? (h : Over S d d') {ts : List (Term Leaf)} (hts : terms? d = some ts) :
    ∃ ts', terms? d' = some ts' ∧ List.Forall₂ (Term.Forall₂ (Leaf.Over S)) ts ts' := by
  induction h generalizing ts with
  | nil =>
    cases hts
    exact ⟨[], rfl, .nil⟩
  | cons htoken _ ih =>
    obtain ⟨us, hus, hput⟩ := Option.bind_eq_some_iff.mp hts
    obtain ⟨us', hus', hrel⟩ := ih hus
    obtain ⟨ts', hts', hrel'⟩ := put? htoken hrel hput
    exact ⟨ts', Option.bind_eq_some_iff.mpr ⟨us', hus', hts'⟩, hrel'⟩

theorem conj_forall₂ {R : Leaf → Leaf → Prop} {ts ts' : List (Term Leaf)} (h : List.Forall₂ (Term.Forall₂ R) ts ts') :
    Term.Forall₂ R (Term.conj ts) (Term.conj ts') := by
  have fold : ∀ {ts ts' : List (Term Leaf)}, List.Forall₂ (Term.Forall₂ R) ts ts' → ∀ {t t'}, Term.Forall₂ R t t' →
      Term.Forall₂ R (ts.foldl .and t) (ts'.foldl .and t') := by
    intro ts ts' hts
    induction hts with
    | nil => exact fun ht => ht
    | cons ha _ ih => exact fun ht => ih (.and ht ha)
  cases h with
  | nil => exact .const true
  | cons ht hts => exact fold hts ht

theorem negateLeaf_forall₂ {l l' : Leaf} (h : l.Over S l') :
    Term.Forall₂ (Leaf.Over S) (Term.negateLeaf l) (Term.negateLeaf l') := by
  unfold Term.negateLeaf
  rw [h.op]
  cases l.op.negate? with
  | some op => exact .leaf (h.with_op op)
  | none => exact .not (.leaf h)

theorem inward_forall₂ {t t' : Term Leaf} (h : Term.Forall₂ (Leaf.Over S) t t') (negated : Bool) :
    Term.Forall₂ (Leaf.Over S) (t.inward negated) (t'.inward negated) := by
  induction h generalizing negated with
  | const b => exact .const _
  | leaf hl =>
    cases negated
    · exact .leaf hl
    · exact negateLeaf_forall₂ hl
  | not _ ih => exact ih (!negated)
  | and _ _ iha ihb =>
    cases negated
    · exact .and (iha false) (ihb false)
    · exact .or (iha true) (ihb true)
  | or _ _ iha ihb =>
    cases negated
    · exact .or (iha false) (ihb false)
    · exact .and (iha true) (ihb true)

/-- With their negations moved to the leaves, both spell terms of one shape. -/
theorem Over.distributeNot (h : Over S d d') {e e' : Domain} (he : distributeNot d = .ok e)
    (he' : distributeNot d' = .ok e') :
    ∃ t t', e = t.spell ∧ e' = t'.spell ∧ Term.Forall₂ (Leaf.Over S) t t' := by
  obtain ⟨ts, hts, rfl⟩ := distributeNot_eq_ok he
  obtain ⟨ts', hts', hrel⟩ := h.terms? hts
  rw [distributeNot_of_terms? hts'] at he'
  cases he'
  exact ⟨_, _, rfl, rfl, inward_forall₂ (conj_forall₂ hrel) false⟩

theorem verdict_forall₂ (hempty : ∀ ⦃r r'⦄, S r r' → r'.isEmptySet = r.isEmptySet) {t t' : Term Leaf}
    (h : Term.Forall₂ (Leaf.Over S) t t') : t'.verdict = t.verdict := by
  induction h with
  | const b => rfl
  | @leaf l l' hl =>
    show l'.verdict = l.verdict
    rw [Leaf.verdict, Leaf.verdict, hl.op, hempty hl.right]
  | not _ ih => exact congrArg Verdict.not ih
  | and _ _ iha ihb => exact congrArg₂ Verdict.and iha ihb
  | or _ _ iha ihb => exact congrArg₂ Verdict.or iha ihb

/-- Where operands that are related are empty together, both domains are false by themselves or neither is. -/
theorem Over.isFalse (hempty : ∀ ⦃r r'⦄, S r r' → r'.isEmptySet = r.isEmptySet) (h : Over S d d') {b b' : Bool}
    (hb : d.isFalse = .ok b) (hb' : d'.isFalse = .ok b') : b' = b := by
  cases hn : normalize d with
  | error e =>
    unfold Domain.isFalse at hb
    rw [hn] at hb
    cases hb
  | ok n =>
    obtain ⟨ts, hts, -⟩ := normalize_eq_ok hn
    obtain ⟨ts', hts', hrel⟩ := h.terms? hts
    rw [isFalse_of_terms? hts] at hb
    rw [isFalse_of_terms? hts', verdict_forall₂ hempty (conj_forall₂ hrel)] at hb'
    exact Except.ok.inj (hb'.symm.trans hb)

end Domain
end RecordFilter
