import Mathlib.Logic.Basic
import RecordFilter.Proofs.Domain.Verdicts

/-! Domains that are false by themselves, exactly. The verdict on a term allows just the values that the term can take
    when each occurrence of a leaf takes a value of its own, but those with empty sets take the only one they can. So a
    domain is false by itself where it is false whatever its leaves are; where the verdict is open, it can be both. -/

namespace RecordFilter

/-- A leaf at a position in a domain. -/
structure Occurrence where
  position : Nat
  leaf : Leaf

namespace Occurrence

/-- Values that the empty sets allow: nothing is within an empty set, and everything is outside it. -/
def Fits (v : Occurrence → Bool) : Prop :=
  ∀ o, o.leaf.right.isEmptySet = true → (o.leaf.op = .within → v o = false) ∧ (o.leaf.op = .notIn → v o = true)

end Occurrence

namespace Verdict

/-- Whether something with the verdict can have the truth value. -/
def allows : Verdict → Bool → Bool
  | never, b => !b
  | unknown, _ => true
  | always, b => b

theorem allows_not (a : Verdict) (b : Bool) : a.not.allows b = a.allows (!b) := by cases a <;> simp [not, allows]

theorem allows_and_iff {a b : Verdict} {x : Bool} :
    (a.and b).allows x = true ↔ ∃ y z, a.allows y = true ∧ b.allows z = true ∧ (y && z) = x := by
  cases a <;> cases b <;> cases x <;> simp [and, allows]

theorem allows_or_iff {a b : Verdict} {x : Bool} :
    (a.or b).allows x = true ↔ ∃ y z, a.allows y = true ∧ b.allows z = true ∧ (y || z) = x := by
  cases a <;> cases b <;> cases x <;> simp [or, allows]

/-- What is false by itself cannot be true, and all else can be. -/
theorem eq_never_iff {a : Verdict} : a = never ↔ a.allows true = false := by cases a <;> simp [allows]

end Verdict

theorem Leaf.verdict_eq_always {l : Leaf} : l.verdict = .always ↔ l.op = .notIn ∧ l.right.isEmptySet = true := by
  unfold verdict
  split
  · rename_i hop
    split <;> simp_all
  · rename_i hop
    split <;> simp_all
  · rename_i hnotIn
    simp_all

namespace Occurrence

theorem fits_iff {v : Occurrence → Bool} : Fits v ↔ ∀ o : Occurrence, o.leaf.verdict.allows (v o) = true := by
  refine forall_congr' fun o => ?_
  cases hverdict : o.leaf.verdict with
  | never =>
    obtain ⟨hop, hempty⟩ := Leaf.verdict_eq_never.mp hverdict
    simp [hop, hempty, Verdict.allows]
  | always =>
    obtain ⟨hop, hempty⟩ := Leaf.verdict_eq_always.mp hverdict
    simp [hop, hempty, Verdict.allows]
  | unknown =>
    have hnever : ¬(o.leaf.op = .within ∧ o.leaf.right.isEmptySet = true) := fun h => by
      rw [Leaf.verdict_eq_never.mpr h] at hverdict
      cases hverdict
    have halways : ¬(o.leaf.op = .notIn ∧ o.leaf.right.isEmptySet = true) := fun h => by
      rw [Leaf.verdict_eq_always.mpr h] at hverdict
      cases hverdict
    refine iff_of_true (fun hempty => ⟨fun hop => ?_, fun hop => ?_⟩) rfl
    · exact absurd ⟨hop, hempty⟩ hnever
    · exact absurd ⟨hop, hempty⟩ halways

/-- Every occurrence has the value `b` where it can. -/
def leaning (b : Bool) (o : Occurrence) : Bool := if o.leaf.verdict.allows b then b else !b

theorem fits_leaning (b : Bool) : Fits (leaning b) := by
  refine fits_iff.mpr fun o => ?_
  unfold leaning
  cases o.leaf.verdict <;> cases b <;> rfl

end Occurrence

namespace Term
variable {α β γ : Type}

theorem eval_congr {v w : α → Bool} {t : Term α} (h : ∀ a ∈ t.leaves, v a = w a) : t.eval v = t.eval w := by
  induction t with
  | const b => rfl
  | leaf a => exact h a (List.mem_singleton_self a)
  | not t ih => exact congrArg (!·) (ih h)
  | and a b iha ihb =>
    exact congrArg₂ (· && ·) (iha fun x hx => h x (List.mem_append_left _ hx))
      (ihb fun x hx => h x (List.mem_append_right _ hx))
  | or a b iha ihb =>
    exact congrArg₂ (· || ·) (iha fun x hx => h x (List.mem_append_left _ hx))
      (ihb fun x hx => h x (List.mem_append_right _ hx))

theorem eval_map (f : α → β) (v : β → Bool) (t : Term α) : (t.map f).eval v = t.eval (v ∘ f) := by
  induction t with
  | const b => rfl
  | leaf a => rfl
  | not t ih => exact congrArg (!·) ih
  | and a b iha ihb => exact congrArg₂ (· && ·) iha ihb
  | or a b iha ihb => exact congrArg₂ (· || ·) iha ihb

theorem map_conj (f : α → β) (ts : List (Term α)) : (conj ts).map f = conj (ts.map (map f)) := by
  have fold : ∀ (ts : List (Term α)) (t : Term α), (ts.foldl and t).map f = (ts.map (map f)).foldl and (t.map f) := by
    intro ts
    induction ts with
    | nil => exact fun _ => rfl
    | cons a ts ih => exact fun t => ih (.and t a)
  cases ts with
  | nil => rfl
  | cons t ts => exact fold ts t

theorem put?_map (f : Leaf → α) (g : α → β) (token : Token) (ts : List (Term α)) :
    put? (g ∘ f) token (ts.map (map g)) = (put? f token ts).map (List.map (map g)) := by
  cases token with
  | not => cases ts <;> rfl
  | and | or =>
    match ts with
    | [] => rfl
    | [_] => rfl
    | _ :: _ :: _ => rfl
  | _ => rfl

/-- A leaf comes in front of those that are there; no other token brings one. -/
theorem leaves_of_put? {f : Leaf → α} {token : Token} {ts us : List (Term α)} (h : put? f token ts = some us) :
    us.flatMap leaves = (token.leaf?.map f).toList ++ ts.flatMap leaves := by
  unfold put? at h
  split at h <;> cases h <;> simp [leaves, Token.leaf?]

/-! ### What a verdict allows -/

/-- Values for the leaves of a term, and other ones elsewhere. -/
def splice (t : Term Occurrence) (v w : Occurrence → Bool) (o : Occurrence) : Bool :=
  if o.position ∈ t.leaves.map Occurrence.position then v o else w o

theorem fits_splice {t : Term Occurrence} {v w : Occurrence → Bool} (hv : Occurrence.Fits v) (hw : Occurrence.Fits w) :
    Occurrence.Fits (t.splice v w) := fun o hempty => by
  unfold splice
  split
  · exact hv o hempty
  · exact hw o hempty

theorem eval_splice_left (t : Term Occurrence) (v w : Occurrence → Bool) : t.eval (t.splice v w) = t.eval v :=
  eval_congr fun _ ho => if_pos (List.mem_map_of_mem ho)

theorem eval_splice_right {a b : Term Occurrence} (v w : Occurrence → Bool)
    (h : ((a.leaves ++ b.leaves).map Occurrence.position).Nodup) : b.eval (a.splice v w) = b.eval w := by
  rw [List.map_append, List.nodup_append] at h
  refine eval_congr fun o ho => if_neg fun hmem => ?_
  exact h.2.2 _ hmem _ (List.mem_map_of_mem ho) rfl

/-- Two parts without a common occurrence take together whatever values each of them takes. -/
theorem exists_fits_both {a b : Term Occurrence} (h : ((a.leaves ++ b.leaves).map Occurrence.position).Nodup)
    (op : Bool → Bool → Bool) (x : Bool) :
    (∃ y z, (∃ v, Occurrence.Fits v ∧ a.eval v = y) ∧ (∃ v, Occurrence.Fits v ∧ b.eval v = z) ∧ op y z = x) ↔
      ∃ v, Occurrence.Fits v ∧ op (a.eval v) (b.eval v) = x := by
  constructor
  · rintro ⟨_, _, ⟨v, hv, rfl⟩, ⟨w, hw, rfl⟩, hx⟩
    exact ⟨a.splice v w, fits_splice hv hw, by rw [eval_splice_left, eval_splice_right v w h, hx]⟩
  · rintro ⟨v, hv, hx⟩
    exact ⟨_, _, ⟨v, hv, rfl⟩, ⟨v, hv, rfl⟩, hx⟩

/-- The verdict on a term allows just the values that it can take. -/
theorem allows_verdict_iff {t : Term Occurrence} (h : (t.leaves.map Occurrence.position).Nodup) (x : Bool) :
    (t.map Occurrence.leaf).verdict.allows x = true ↔ ∃ v, Occurrence.Fits v ∧ t.eval v = x := by
  induction t generalizing x with
  | const b =>
    have hfits := Occurrence.fits_leaning true
    cases b <;> cases x <;> simp [map, verdict, Verdict.allows, eval] <;> exact ⟨_, hfits⟩
  | leaf o =>
    show o.leaf.verdict.allows x = true ↔ ∃ v, Occurrence.Fits v ∧ v o = x
    constructor
    · intro hx
      exact ⟨Occurrence.leaning x, Occurrence.fits_leaning x, if_pos hx⟩
    · rintro ⟨v, hv, rfl⟩
      exact Occurrence.fits_iff.mp hv o
  | not t ih =>
    show (t.map Occurrence.leaf).verdict.not.allows x = true ↔ ∃ v, Occurrence.Fits v ∧ (!t.eval v) = x
    rw [Verdict.allows_not, ih h]
    simp only [Bool.not_eq_eq_eq_not]
  | and a b iha ihb =>
    have hparts := h
    rw [leaves, List.map_append, List.nodup_append] at hparts
    show ((a.map Occurrence.leaf).verdict.and (b.map Occurrence.leaf).verdict).allows x = true ↔
      ∃ v, Occurrence.Fits v ∧ (a.eval v && b.eval v) = x
    simp only [Verdict.allows_and_iff, iha hparts.1, ihb hparts.2.1]
    exact exists_fits_both h (· && ·) x
  | or a b iha ihb =>
    have hparts := h
    rw [leaves, List.map_append, List.nodup_append] at hparts
    show ((a.map Occurrence.leaf).verdict.or (b.map Occurrence.leaf).verdict).allows x = true ↔
      ∃ v, Occurrence.Fits v ∧ (a.eval v || b.eval v) = x
    simp only [Verdict.allows_or_iff, iha hparts.1, ihb hparts.2.1]
    exact exists_fits_both h (· || ·) x

end Term

namespace Domain
variable {d : Domain}

/-! ### Reading occurrences -/

/-- The terms that a sequence of tokens spells, over the occurrences of its leaves. The first token stands at position
    `first`. -/
def occurrenceTerms? : Nat → Domain → Option (List (Term Occurrence))
  | _, [] => some []
  | first, token :: rest => (occurrenceTerms? (first + 1) rest).bind (Term.put? (Occurrence.mk first) token)

/-- The truth value of a domain, given those of the occurrences of its leaves. -/
def valueAt? (v : Occurrence → Bool) (d : Domain) : Option Bool :=
  (occurrenceTerms? 0 d).map fun ts => ts.all (Term.eval v)

theorem terms?_eq_map (first : Nat) (d : Domain) :
    terms? d = (occurrenceTerms? first d).map (List.map (Term.map Occurrence.leaf)) := by
  induction d generalizing first with
  | nil => rfl
  | cons token rest ih =>
    rw [terms?, ih (first + 1), occurrenceTerms?]
    cases occurrenceTerms? (first + 1) rest with
    | none => rfl
    | some ts => exact Term.put?_map (Occurrence.mk first) Occurrence.leaf token ts

/-- Occurrences are read in the order of their positions. -/
theorem positions_increase {first : Nat} {ts : List (Term Occurrence)} (h : occurrenceTerms? first d = some ts) :
    ((ts.flatMap Term.leaves).map Occurrence.position).Pairwise (· < ·) ∧
      ∀ o ∈ ts.flatMap Term.leaves, first ≤ o.position := by
  induction d generalizing first ts with
  | nil =>
    cases h
    exact ⟨.nil, nofun⟩
  | cons token rest ih =>
    obtain ⟨us, hus, hput⟩ := Option.bind_eq_some_iff.mp h
    obtain ⟨hincrease, hfirst⟩ := ih hus
    rw [Term.leaves_of_put? hput]
    cases token.leaf? with
    | none => exact ⟨hincrease, fun o ho => Nat.le_of_succ_le (hfirst o ho)⟩
    | some l =>
      refine ⟨List.pairwise_cons.mpr ⟨fun position hposition => ?_, hincrease⟩, fun o ho => ?_⟩
      · obtain ⟨o, ho, rfl⟩ := List.mem_map.mp hposition
        exact hfirst o ho
      · rcases List.mem_cons.mp ho with rfl | ho
        · exact Nat.le_refl first
        · exact Nat.le_of_succ_le (hfirst o ho)

/-- What is read of a domain of terms: one term, no occurrence twice, and the verdict on it is that on the domain. -/
theorem occurrenceTerm_of_terms? {ts : List (Term Leaf)} (h : terms? d = some ts) :
    ∃ t : Term Occurrence, (∀ v, valueAt? v d = some (t.eval v)) ∧ (t.leaves.map Occurrence.position).Nodup ∧
      t.map Occurrence.leaf = Term.conj ts := by
  rw [terms?_eq_map 0] at h
  obtain ⟨us, hus, rfl⟩ := Option.map_eq_some_iff.mp h
  refine ⟨Term.conj us, fun v => ?_, ?_, Term.map_conj _ us⟩
  · rw [valueAt?, hus, Term.eval_conj]
    rfl
  · rw [Term.leaves_conj]
    exact (positions_increase hus).1.imp Nat.ne_of_lt

/-- A domain that spells no terms has no value. -/
theorem valueAt?_eq_none (h : terms? d = none) (v : Occurrence → Bool) : valueAt? v d = none := by
  rw [terms?_eq_map 0, Option.map_eq_none_iff] at h
  rw [valueAt?, h]
  rfl

/-- Where all occurrences of a leaf have one value, the domain has its value for leaves. -/
theorem valueAt?_leaf (v : Leaf → Bool) (d : Domain) : valueAt? (v ∘ Occurrence.leaf) d = value? v d := by
  cases h : terms? d with
  | none =>
    rw [valueAt?_eq_none h, value?, h]
    rfl
  | some ts =>
    obtain ⟨t, ht, -, hmap⟩ := occurrenceTerm_of_terms? h
    rw [ht, value?_of_terms? h, ← hmap, Term.eval_map]

/-! ### The whole -/

/-- Only normalizing can fail. -/
theorem isFalse_eq_error {err : Error} : d.isFalse = .error err ↔ normalize d = .error err := by
  cases hn : normalize d with
  | error err' => simp [isFalse, hn]
  | ok n =>
    obtain ⟨ts, hts, -⟩ := normalize_eq_ok hn
    simp [isFalse_of_terms? hts]

/-- Whether a domain is false by itself is refused where normalizing it is. It is false by itself just where it is false
    for all values that the occurrences of its leaves can take, each its own; and if it has no leaves, just where it is
    false. -/
theorem isFalse_exact (d : Domain) :
    (∀ err, d.isFalse = .error err ↔ normalize d = .error err) ∧
    (d.isFalse = .ok true ↔ ∀ v, Occurrence.Fits v → valueAt? v d = some false) ∧
    (d.leaves = [] → ∀ v, d.isFalse = .ok true ↔ value? v d = some false) := by
  have hexact : d.isFalse = .ok true ↔ ∀ v, Occurrence.Fits v → valueAt? v d = some false := by
    cases hts : terms? d with
    | none =>
      refine iff_of_false (fun h => ?_) fun h => ?_
      · obtain ⟨ts, hts', -⟩ := isFalse_eq_true h
        rw [hts] at hts'
        cases hts'
      · have hvalue := h _ (Occurrence.fits_leaning true)
        rw [valueAt?_eq_none hts] at hvalue
        cases hvalue
    | some ts =>
      obtain ⟨t, hvalue, hnodup, hmap⟩ := occurrenceTerm_of_terms? hts
      rw [isFalse_of_terms? hts, ← hmap, Except.ok.injEq, decide_eq_true_iff, Verdict.eq_never_iff,
        ← Bool.not_eq_true, Term.allows_verdict_iff hnodup]
      simp [hvalue]
  refine ⟨fun err => isFalse_eq_error, hexact, fun hleaves v => hexact.trans ?_⟩
  -- Without leaves all values agree.
  have hvalue : ∀ w, valueAt? w d = value? v d := by
    intro w
    rw [← valueAt?_leaf]
    cases hts : terms? d with
    | none => rw [valueAt?_eq_none hts, valueAt?_eq_none hts]
    | some ts =>
      obtain ⟨t, ht, -, hmap⟩ := occurrenceTerm_of_terms? hts
      have hnone : t.leaves = [] := by
        have hmapped := Term.leaves_map Occurrence.leaf t
        rw [hmap, ← leaves_of_terms? hts, hleaves] at hmapped
        exact List.map_eq_nil_iff.mp hmapped.symm
      rw [ht, ht]
      exact congrArg some (Term.eval_congr fun o ho => by rw [hnone] at ho; cases ho)
  simp only [hvalue]
  exact ⟨fun h => h _ (Occurrence.fits_leaning true), fun h _ _ => h⟩

/-- A leaf beside its negation is always false, but not false by itself, since each of its occurrences counts on its own.
    A leaf beside an empty set is false by itself, and so are the constants that never hold. -/
theorem isFalse_exact_twice :
    let l : Leaf := ⟨"a", .eq, .value (.int 1)⟩
    let twice : Domain := [.leaf l, .not, .leaf l]
    let vain : Domain := [.leaf l, .leaf ⟨"b", .within, .value (.arr [])⟩]
    let constants : Domain := [.or, .not, .true, .false]
    ((∀ v, value? v twice = some false) ∧ ∃ v, Occurrence.Fits v ∧ valueAt? v twice ≠ some false) ∧
      (Occurrence.Fits (Occurrence.leaning true) ∧ valueAt? (Occurrence.leaning true) vain = some false) ∧
      constants.leaves = [] ∧ constants.isFalse = .ok true := by
  intro l twice vain constants
  have hfits := Occurrence.fits_leaning true
  have hvalue : ∀ v, value? v twice = some false := fun v => by
    have hterms : terms? twice = some [.leaf l, .not (.leaf l)] := rfl
    rw [value?_of_terms? hterms]
    exact congrArg some (Bool.and_not_self _)
  have htwice : ¬∀ v, Occurrence.Fits v → valueAt? v twice = some false := fun h => by
    cases (isFalse_exact twice).2.1.mpr h
  have hvain : vain.isFalse = .ok true := rfl
  refine ⟨⟨hvalue, ?_⟩, ⟨hfits, (isFalse_exact vain).2.1.mp hvain _ hfits⟩, rfl, ?_⟩
  · obtain ⟨v, hv⟩ := Classical.not_forall.mp htwice
    obtain ⟨hv, hne⟩ := Classical.not_imp.mp hv
    exact ⟨v, hv, hne⟩
  · exact ((isFalse_exact constants).2.2 rfl fun _ => true).mpr rfl

end Domain
end RecordFilter
