import RecordFilter.Domain.Combine
import RecordFilter.Domain.Emptiness
import RecordFilter.Domain.Negation
import RecordFilter.Proofs.Sql.Shape

/-! Domains that differ at most in what their strings say. What is done with a domain before it is compiled
    tells them apart only in the texts of errors. -/

namespace RecordFilter

/-- Whatever the first computation gives, the second one gives something that is related to it. -/
def Carries {ε ε' α β : Type} (R : α → β → Prop) (x : Except ε α) (x' : Except ε' β) : Prop :=
  ∀ a, x = .ok a → ∃ a', x' = .ok a' ∧ R a a'

namespace Carries
variable {ε ε' α β γ δ : Type} {R : α → β → Prop} {S : γ → δ → Prop} {x : Except ε α} {x' : Except ε' β}

theorem ok {a : α} {a' : β} (h : R a a') : Carries R (.ok a : Except ε α) (.ok a' : Except ε' β) := fun _ hb => by
  cases hb
  exact ⟨a', rfl, h⟩

theorem error {e : ε} : Carries R (.error e) x' := fun _ h => by cases h

theorem refl {R : α → α → Prop} (hR : ∀ a, R a a) (x : Except ε α) : Carries R x x := fun a h => ⟨a, h, hR a⟩

theorem map (h : Carries R x x') {f : α → γ} {f' : β → δ} (hf : ∀ a a', R a a' → S (f a) (f' a')) :
    Carries S (x.map f) (x'.map f') := by
  intro c hc
  cases x with
  | error e => cases hc
  | ok a =>
    cases hc
    obtain ⟨a', rfl, ha⟩ := h a rfl
    exact ⟨f' a', rfl, hf a a' ha⟩

end Carries

/-! ### Values and leaves -/

namespace Json

/-- Two items of a list that differ at most in what a string says. -/
inductive ItemAlike : Json → Json → Prop
  | refl (v : Json) : ItemAlike v v
  | str (s s' : String) : ItemAlike (.str s) (.str s')

/-- Two values that differ at most in what strings say: a value that is a string, neither time the empty one, or
    the strings of a list. -/
inductive Alike : Json → Json → Prop
  | refl (v : Json) : Alike v v
  | str {s s' : String} : s ≠ "" → s' ≠ "" → Alike (.str s) (.str s')
  | arr {items items' : List Json} : List.Forall₂ ItemAlike items items' → Alike (.arr items) (.arr items')

variable {v v' : Json}

theorem ItemAlike.symm (h : ItemAlike v v') : ItemAlike v' v := by
  cases h with
  | refl => exact .refl _
  | str => exact .str _ _

theorem Alike.symm (h : Alike v v') : Alike v' v := by
  cases h with
  | refl => exact .refl _
  | str hs hs' => exact .str hs' hs
  | arr hitems => exact .arr (hitems.flip.imp fun _ _ => ItemAlike.symm)

theorem ItemAlike.isUnset (h : ItemAlike v v') : v'.isUnset = v.isUnset := by cases h <;> rfl

theorem Alike.isUnset (h : Alike v v') : v'.isUnset = v.isUnset := by cases h <;> rfl

theorem isEmpty_of_forall₂ {α β : Type} {R : α → β → Prop} {as : List α} {bs : List β} (h : List.Forall₂ R as bs) :
    bs.isEmpty = as.isEmpty := by cases h <;> rfl

theorem isTruthy_str {s : String} (h : s ≠ "") : (str s).isTruthy = true := bne_iff_ne.mpr h

theorem Alike.isTruthy (h : Alike v v') : v'.isTruthy = v.isTruthy := by
  cases h with
  | refl => rfl
  | str hs hs' => rw [isTruthy_str hs, isTruthy_str hs']
  | arr hitems => simp only [Json.isTruthy, isEmpty_of_forall₂ hitems]

end Json

/-- Two operands that differ at most in what strings say. Subqueries may be bound to other values. -/
inductive Operand.Alike : Operand → Operand → Prop
  | value {v v' : Json} : v.Alike v' → Alike (.value v) (.value v')
  | subquery {s s' : Sql.Select} : Sql.SameShape s.fragment s'.fragment → Alike (.subquery s) (.subquery s')

namespace Operand.Alike
variable {r r' : Operand}

theorem refl (r : Operand) : Alike r r := by
  cases r with
  | value v => exact .value (.refl v)
  | subquery s => exact .subquery (.refl _)

theorem symm (h : Alike r r') : Alike r' r := by
  cases h with
  | value hv => exact .value hv.symm
  | subquery hsub => exact .subquery hsub.symm

theorem isUnset (h : Alike r r') : r'.isUnset = r.isUnset := by
  cases h with
  | value hv => exact hv.isUnset
  | subquery => rfl

theorem isTruthy (h : Alike r r') : r'.isTruthy = r.isTruthy := by
  cases h with
  | value hv => exact hv.isTruthy
  | subquery => rfl

theorem isEmptySet (h : Alike r r') : r'.isEmptySet = r.isEmptySet := by
  cases h with
  | subquery => rfl
  | value hv =>
    cases hv with
    | refl => rfl
    | str hs hs' => exact congrArg Bool.not (Json.Alike.str hs hs').isTruthy
    | arr hitems => exact Json.isEmpty_of_forall₂ hitems

end Operand.Alike

/-- Two leaves that differ at most in what the strings of their operands say. -/
structure Leaf.Alike (l l' : Leaf) : Prop where
  left : l'.left = l.left
  op : l'.op = l.op
  right : l.right.Alike l'.right

namespace Leaf.Alike
variable {l l' : Leaf}

theorem refl (l : Leaf) : l.Alike l := ⟨rfl, rfl, .refl _⟩

theorem symm (h : l.Alike l') : l'.Alike l := ⟨h.left.symm, h.op.symm, h.right.symm⟩

theorem path (h : l.Alike l') : l'.path = l.path := by rw [Leaf.path, Leaf.path, h.left]

theorem verdict (h : l.Alike l') : l'.verdict = l.verdict := by
  rw [Leaf.verdict, Leaf.verdict, h.op, h.right.isEmptySet]

theorem with_op (h : l.Alike l') (op : Operator) : Leaf.Alike { l with op := op } { l' with op := op } :=
  ⟨h.left, rfl, h.right⟩

theorem with_left (h : l.Alike l') (left : String) : Leaf.Alike { l with left := left } { l' with left := left } :=
  ⟨rfl, h.op, h.right⟩

end Leaf.Alike

/-! ### Tokens and domains -/

/-- Two tokens that differ at most in what the strings of a leaf say. -/
inductive Token.Alike : Token → Token → Prop
  | refl (token : Token) : Alike token token
  | leaf {l l' : Leaf} : l.Alike l' → Alike (.leaf l) (.leaf l')

/-- Two domains that differ at most in what strings say. -/
abbrev Domain.Alike : Domain → Domain → Prop := List.Forall₂ Token.Alike

theorem Token.Alike.arity {token token' : Token} (h : token.Alike token') : token'.arity = token.arity := by
  cases h <;> rfl

namespace Domain
variable {d d' : Domain}

theorem Alike.refl (d : Domain) : Alike d d := List.forall₂_same.mpr fun token _ => .refl token

theorem Alike.append {e e' : Domain} (hd : Alike d d') (he : Alike e e') : Alike (d ++ e) (d' ++ e') :=
  List.rel_append hd he

theorem Alike.ofLeaf (left : String) (op : Operator) {r r' : Operand} (h : r.Alike r') :
    Alike (ofLeaf left op r) (ofLeaf left op r') := .cons (.leaf ⟨rfl, rfl, h⟩) .nil

theorem Alike.any_left (h : Alike d d') (left : String) :
    d'.leaves.any (·.left = left) = d.leaves.any (·.left = left) := by
  induction h with
  | nil => rfl
  | @cons token _ _ _ htoken _ ih =>
    cases htoken with
    | refl =>
      cases token with
      | leaf l => exact congrArg (decide (l.left = left) || ·) ih
      | _ => exact ih
    | leaf hl =>
      show (decide _ || _) = (decide _ || _)
      rw [hl.left]
      exact congrArg _ ih

/-! ### Normal domains -/

theorem Alike.count (h : Alike d d') (implied missing : Nat) : count implied missing d' = count implied missing d := by
  induction h generalizing implied missing with
  | nil => rfl
  | cons htoken _ ih => cases missing <;> simp only [Domain.count, htoken.arity, ih]

theorem Alike.normalize (h : Alike d d') : Carries Alike (normalize d) (normalize d') := by
  unfold Domain.normalize
  rw [Json.isEmpty_of_forall₂ h, h.count]
  split
  · exact .ok (.refl _)
  · dsimp only
    split
    · exact .ok (Alike.append (.refl _) h)
    · exact .error

theorem negateLeaf_alike {l l' : Leaf} (h : l.Alike l') : Alike (negateLeaf l) (negateLeaf l') := by
  unfold negateLeaf
  rw [h.op]
  cases l.op.negate? with
  | some op => exact .cons (.leaf (h.with_op op)) .nil
  | none => exact .cons (.refl _) (.cons (.leaf h) .nil)

theorem Alike.push (h : Alike d d') (pending : List Bool) : Carries Alike (push pending d) (push pending d') := by
  induction h generalizing pending with
  | nil => exact .refl Alike.refl _
  | @cons token _ _ _ htoken _ ih =>
    cases pending with
    | nil => exact .error
    | cons negated pending =>
      cases htoken with
      | refl =>
        cases token with
        | not => exact ih ((!negated) :: pending)
        | and => exact (ih (negated :: negated :: pending)).map fun _ _ => List.Forall₂.cons (.refl _)
        | or => exact (ih (negated :: negated :: pending)).map fun _ _ => List.Forall₂.cons (.refl _)
        | true => exact (ih pending).map fun _ _ => List.Forall₂.cons (.refl _)
        | false => exact (ih pending).map fun _ _ => List.Forall₂.cons (.refl _)
        | leaf l => exact (ih pending).map fun _ _ => Alike.append (.refl _)
      | leaf hl =>
        refine (ih pending).map fun _ _ hrest => Alike.append ?_ hrest
        cases negated
        · exact .cons (.leaf hl) .nil
        · exact negateLeaf_alike hl

theorem Alike.distributeNot (h : Alike d d') : Carries Alike (distributeNot d) (distributeNot d') := by
  intro e he
  unfold Domain.distributeNot at he ⊢
  split at he
  · cases he
  · rename_i n hn
    obtain ⟨n', hn', halike⟩ := h.normalize n hn
    rw [hn']
    exact halike.push [false] e he

/-! ### Conjunctions -/

theorem Alike.isAlways (h : Alike d d') : d'.isAlways = d.isAlways := by
  cases h with
  | nil => rfl
  | @cons token token' _ _ htoken hrest =>
    cases hrest with
    | nil => cases htoken <;> rfl
    | cons => cases token <;> cases token' <;> rfl

theorem Alike.isNever (h : Alike d d') : d'.isNever = d.isNever := by
  cases h with
  | nil => rfl
  | @cons token token' _ _ htoken hrest =>
    cases hrest with
    | nil => cases htoken <;> rfl
    | cons => cases token <;> cases token' <;> rfl

theorem members_alike {skip decide : Domain → Bool} (hskip : ∀ {d d'}, Alike d d' → skip d' = skip d)
    (hdecide : ∀ {d d'}, Alike d d' → decide d' = decide d) {ds ds' : List Domain} (h : List.Forall₂ Alike ds ds') :
    Carries (Option.Rel (List.Forall₂ Alike)) (members skip decide ds) (members skip decide ds') := by
  induction h with
  | nil => exact .ok (.some .nil)
  | cons hd _ ih =>
    unfold members
    rw [hskip hd, hdecide hd, Json.isEmpty_of_forall₂ hd]
    split
    · exact ih
    split
    · exact .ok .none
    split
    · exact ih
    split
    · exact .error
    rename_i n hn
    obtain ⟨n', hn', halike⟩ := hd.normalize n hn
    rw [hn']
    cases hrest : members skip decide _ with
    | error e => exact .error
    | ok found =>
      obtain ⟨found', hfound', hrel⟩ := ih found hrest
      rw [hfound']
      cases hrel with
      | none => exact .ok .none
      | some hns => exact .ok (.some (.cons halike hns))

theorem joined_alike (op : Token) (unit : Domain) {ns ns' : List Domain} (h : List.Forall₂ Alike ns ns') :
    Alike (joined op unit ns) (joined op unit ns') := by
  have hlength := h.length_eq
  cases h with
  | nil => exact .refl _
  | cons hn hns =>
    unfold joined
    rw [hlength]
    exact Alike.append (.refl _) (List.rel_flatten (.cons hn hns))

theorem allOf_alike {ds ds' : List Domain} (h : List.Forall₂ Alike ds ds') : Carries Alike (allOf ds) (allOf ds') := by
  have hmembers := members_alike Alike.isAlways Alike.isNever h
  unfold allOf
  cases hfound : members isAlways isNever ds with
  | error e => exact .error
  | ok found =>
    obtain ⟨found', hfound', hrel⟩ := hmembers found hfound
    rw [hfound']
    cases hrel with
    | none => exact .ok (.refl _)
    | some hns => exact .ok (joined_alike _ _ hns)

/-! ### Emptiness -/

theorem Alike.verdicts (h : Alike d d') : verdicts d' = verdicts d := by
  induction h with
  | nil => rfl
  | cons htoken _ ih =>
    unfold Domain.verdicts
    rw [ih]
    cases htoken with
    | refl token => rfl
    | leaf hl => simp only [applyToken, hl.verdict]

theorem Alike.isFalse (h : Alike d d') : Carries (· = ·) d.isFalse d'.isFalse := by
  intro b hb
  unfold Domain.isFalse at hb ⊢
  split at hb
  · cases hb
  · rename_i n hn
    obtain ⟨n', hn', halike⟩ := h.normalize n hn
    rw [hn']
    dsimp only
    rw [halike.verdicts]
    exact ⟨b, hb, rfl⟩

end Domain
end RecordFilter
