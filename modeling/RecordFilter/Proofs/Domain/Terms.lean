import RecordFilter.Domain.Normal

/-! Terms: what a sequence of tokens spells in prefix notation. A domain that `normalize` accepts is a
    row of terms; it stands for their conjunction, which its normal form spells as one term. -/

namespace RecordFilter

/-- A tree of operators over leaves. -/
inductive Term (α : Type)
  | const (value : Bool)
  | leaf (a : α)
  | not (t : Term α)
  | and (a b : Term α)
  | or (a b : Term α)

namespace Term
variable {α β : Type}

/-- The term with other leaves. -/
def map (f : α → β) : Term α → Term β
  | const b => const b
  | leaf a => leaf (f a)
  | not t => not (t.map f)
  | and a b => and (a.map f) (b.map f)
  | or a b => or (a.map f) (b.map f)

/-- The leaves from left to right. -/
def leaves : Term α → List α
  | const _ => []
  | leaf a => [a]
  | not t => t.leaves
  | and a b => a.leaves ++ b.leaves
  | or a b => a.leaves ++ b.leaves

/-- The truth value of a term, given those of its leaves. -/
def eval (v : α → Bool) : Term α → Bool
  | const b => b
  | leaf a => v a
  | not t => !t.eval v
  | and a b => a.eval v && b.eval v
  | or a b => a.eval v || b.eval v

/-- No negation stands in the term. -/
def Positive : Term α → Prop
  | const _ | leaf _ => True
  | not _ => False
  | and a b | or a b => a.Positive ∧ b.Positive

/-- The tokens of a term: an operator stands before what it takes. -/
def spell : Term Leaf → Domain
  | const b => [if b then .true else .false]
  | leaf l => [.leaf l]
  | not t => .not :: t.spell
  | and a b => .and :: (a.spell ++ b.spell)
  | or a b => .or :: (a.spell ++ b.spell)

/-- Puts a token before some terms. An operator takes the first ones. -/
def put? (f : Leaf → α) : Token → List (Term α) → Option (List (Term α))
  | .and, a :: b :: ts => some (and a b :: ts)
  | .or, a :: b :: ts => some (or a b :: ts)
  | .not, a :: ts => some (not a :: ts)
  | .true, ts => some (const true :: ts)
  | .false, ts => some (const false :: ts)
  | .leaf l, ts => some (leaf (f l) :: ts)
  | _, _ => none

/-- Where there are enough terms for a token, it can be put before them. -/
theorem put?_of_arity (f : Leaf → α) (token : Token) (ts : List (Term α)) (h : token.arity ≤ ts.length) :
    ∃ us, put? f token ts = some us ∧ us.length + token.arity = ts.length + 1 := by
  match token, ts, h with
  | .and, a :: b :: ts, _ => exact ⟨_, rfl, by simp [Token.arity]⟩
  | .or, a :: b :: ts, _ => exact ⟨_, rfl, by simp [Token.arity]⟩
  | .not, a :: ts, _ => exact ⟨_, rfl, by simp [Token.arity]⟩
  | .true, ts, _ => exact ⟨_, rfl, by simp [Token.arity]⟩
  | .false, ts, _ => exact ⟨_, rfl, by simp [Token.arity]⟩
  | .leaf l, ts, _ => exact ⟨_, rfl, by simp [Token.arity]⟩

/-- The conjunction of some terms. -/
def conj : List (Term α) → Term α
  | [] => const true
  | t :: ts => ts.foldl and t

/-- The disjunction of some terms. -/
def disj : List (Term α) → Term α
  | [] => const false
  | t :: ts => ts.foldl or t

theorem eval_foldl_and (v : α → Bool) (ts : List (Term α)) (t : Term α) :
    (ts.foldl and t).eval v = (t.eval v && ts.all (eval v)) := by
  induction ts generalizing t with
  | nil => simp
  | cons a ts ih => simp [ih, eval, Bool.and_assoc]

theorem eval_conj (v : α → Bool) (ts : List (Term α)) : (conj ts).eval v = ts.all (eval v) := by
  cases ts with
  | nil => rfl
  | cons t ts => exact eval_foldl_and v ts t

theorem leaves_map (f : α → β) (t : Term α) : (t.map f).leaves = t.leaves.map f := by
  induction t with
  | const b => rfl
  | leaf a => rfl
  | not t ih => exact ih
  | and a b iha ihb | or a b iha ihb => simp [map, leaves, iha, ihb]

theorem leaves_foldl {op : Term α → Term α → Term α} (hop : ∀ a b, (op a b).leaves = a.leaves ++ b.leaves)
    (ts : List (Term α)) (t : Term α) : (ts.foldl op t).leaves = t.leaves ++ ts.flatMap leaves := by
  induction ts generalizing t with
  | nil => simp
  | cons a ts ih => simp [ih, hop]

theorem leaves_conj (ts : List (Term α)) : (conj ts).leaves = ts.flatMap leaves := by
  cases ts with
  | nil => rfl
  | cons t ts => exact leaves_foldl (fun _ _ => rfl) ts t

theorem eval_foldl_or (v : α → Bool) (ts : List (Term α)) (t : Term α) :
    (ts.foldl or t).eval v = (t.eval v || ts.any (eval v)) := by
  induction ts generalizing t with
  | nil => simp
  | cons a ts ih => simp [ih, eval, Bool.or_assoc]

theorem eval_disj (v : α → Bool) (ts : List (Term α)) : (disj ts).eval v = ts.any (eval v) := by
  cases ts with
  | nil => rfl
  | cons t ts => exact eval_foldl_or v ts t

theorem leaves_disj (ts : List (Term α)) : (disj ts).leaves = ts.flatMap leaves := by
  cases ts with
  | nil => rfl
  | cons t ts => exact leaves_foldl (fun _ _ => rfl) ts t

theorem positive_foldl_or {ts : List (Term α)} {t : Term α} (ht : t.Positive) (hts : ∀ t ∈ ts, t.Positive) :
    (ts.foldl or t).Positive := by
  induction ts generalizing t with
  | nil => exact ht
  | cons a ts ih =>
    obtain ⟨ha, hts⟩ := List.forall_mem_cons.mp hts
    exact ih ⟨ht, ha⟩ hts

theorem positive_disj {ts : List (Term α)} (h : ∀ t ∈ ts, t.Positive) : (disj ts).Positive := by
  cases ts with
  | nil => trivial
  | cons t ts => exact positive_foldl_or (h t List.mem_cons_self) fun t ht => h t (List.mem_cons_of_mem _ ht)

theorem leaves_spell (t : Term Leaf) : Domain.leaves t.spell = t.leaves := by
  induction t with
  | const b => cases b <;> rfl
  | leaf l => rfl
  | not t ih => exact ih
  | and a b iha ihb =>
    show Domain.leaves (a.spell ++ b.spell) = a.leaves ++ b.leaves
    rw [← iha, ← ihb]
    exact List.filterMap_append
  | or a b iha ihb =>
    show Domain.leaves (a.spell ++ b.spell) = a.leaves ++ b.leaves
    rw [← iha, ← ihb]
    exact List.filterMap_append

end Term

namespace Domain

/-! ### Reading terms -/

/-- The terms that a sequence of tokens spells one after the other, read from the right. -/
def terms? : Domain → Option (List (Term Leaf))
  | [] => some []
  | token :: rest => (terms? rest).bind (Term.put? id token)

/-- The truth value of a domain, given those of its leaves: that of the conjunction of its terms. -/
def value? (v : Leaf → Bool) (d : Domain) : Option Bool := (terms? d).map fun ts => ts.all (Term.eval v)

/-- What is spelled is read back. -/
theorem terms?_spell_append (t : Term Leaf) (d : Domain) :
    terms? (t.spell ++ d) = (terms? d).map (t :: ·) := by
  induction t generalizing d with
  | const b => cases b <;> cases h : terms? d <;> simp [Term.spell, terms?, Term.put?, h]
  | leaf l => cases h : terms? d <;> simp [Term.spell, terms?, Term.put?, h]
  | not t ih => cases h : terms? d <;> simp [Term.spell, terms?, ih, Term.put?, h]
  | and a b iha ihb =>
    cases h : terms? d <;> simp [Term.spell, terms?, List.append_assoc, iha, ihb, Term.put?, h]
  | or a b iha ihb =>
    cases h : terms? d <;> simp [Term.spell, terms?, List.append_assoc, iha, ihb, Term.put?, h]

theorem terms?_spell (t : Term Leaf) : terms? t.spell = some [t] := by
  have h := terms?_spell_append t []
  rwa [List.append_nil] at h

theorem terms?_flatMap_spell (ts : List (Term Leaf)) : terms? (ts.flatMap Term.spell) = some ts := by
  induction ts with
  | nil => rfl
  | cons t ts ih => rw [List.flatMap_cons, terms?_spell_append, ih, Option.map_some]

theorem put?_eq_some {token : Token} {ts us : List (Term Leaf)} (h : Term.put? id token ts = some us) :
    us.flatMap Term.spell = token :: ts.flatMap Term.spell := by
  unfold Term.put? at h
  split at h <;> cases h <;> simp [Term.spell]

/-- What is read was spelled. -/
theorem eq_spell_of_terms? {d : Domain} {ts : List (Term Leaf)} (h : terms? d = some ts) :
    d = ts.flatMap Term.spell := by
  induction d generalizing ts with
  | nil => cases h; rfl
  | cons token rest ih =>
    obtain ⟨us, hus, hput⟩ := Option.bind_eq_some_iff.mp h
    rw [put?_eq_some hput, ← ih hus]

theorem leaves_flatMap_spell (ts : List (Term Leaf)) :
    leaves (ts.flatMap Term.spell) = ts.flatMap Term.leaves := by
  rw [leaves, List.filterMap_flatMap]
  exact congrArg ts.flatMap (funext Term.leaves_spell)

theorem leaves_of_terms? {d : Domain} {ts : List (Term Leaf)} (h : terms? d = some ts) :
    d.leaves = (Term.conj ts).leaves := by
  rw [eq_spell_of_terms? h, leaves_flatMap_spell, Term.leaves_conj]

/-- Operators with two operands in front of some terms combine them from the left. -/
theorem terms?_replicate {token : Token} {op : Term Leaf → Term Leaf → Term Leaf}
    (hput : ∀ a b ts, Term.put? id token (a :: b :: ts) = some (op a b :: ts)) {d : Domain} {t : Term Leaf}
    {ts : List (Term Leaf)} (h : terms? d = some (t :: ts)) :
    terms? (List.replicate ts.length token ++ d) = some [ts.foldl op t] := by
  induction ts generalizing d t with
  | nil => exact h
  | cons a ts ih =>
    have hterms : terms? (token :: d) = some (op t a :: ts) := by simp [terms?, h, hput]
    have := ih hterms
    rwa [show List.replicate (a :: ts).length token ++ d = List.replicate ts.length token ++ token :: d by
      rw [List.length_cons, List.replicate_succ', List.append_assoc]; rfl]

/-- The conjunction of some terms is spelled by the terms behind one operator fewer. -/
theorem spell_conj (t : Term Leaf) (ts : List (Term Leaf)) :
    (Term.conj (t :: ts)).spell = List.replicate ts.length .and ++ (t :: ts).flatMap Term.spell := by
  have hput : ∀ a b ts, Term.put? id .and (a :: b :: ts) = some (.and a b :: ts) := fun _ _ _ => rfl
  have hspell := eq_spell_of_terms? (terms?_replicate hput (terms?_flatMap_spell (t :: ts)))
  rwa [List.flatMap_singleton, eq_comm] at hspell

/-! ### Counting -/

/-- A term completes one that was missing. -/
theorem count_spell (t : Term Leaf) (implied missing : Nat) (rest : Domain) :
    count implied (missing + 1) (t.spell ++ rest) = count implied missing rest := by
  induction t generalizing missing rest with
  | const b => cases b <;> rfl
  | leaf l => rfl
  | not t ih => exact ih missing rest
  | and a b iha ihb =>
    show count implied (missing + 2) (a.spell ++ b.spell ++ rest) = _
    rw [List.append_assoc, iha, ihb]
  | or a b iha ihb =>
    show count implied (missing + 2) (a.spell ++ b.spell ++ rest) = _
    rw [List.append_assoc, iha, ihb]

/-- A term after a complete one implies a conjunction. -/
theorem count_spell_zero (t : Term Leaf) (implied : Nat) (rest : Domain) :
    count implied 0 (t.spell ++ rest) = count (implied + 1) 0 rest := by
  have h : ∀ token d, count implied 0 (token :: d) = count (implied + 1) 1 (token :: d) := fun token d => by
    simp [count]
  rw [← count_spell t (implied + 1) 0 rest]
  cases t <;> exact h _ _

theorem count_terms (ts : List (Term Leaf)) (implied : Nat) :
    count implied 0 (ts.flatMap Term.spell) = (implied + ts.length, 0) := by
  induction ts generalizing implied with
  | nil => rfl
  | cons t ts ih =>
    rw [List.flatMap_cons, count_spell_zero, ih, List.length_cons]
    congr 1
    omega

theorem le_count (d : Domain) (implied missing : Nat) : implied ≤ (count implied missing d).1 := by
  induction d generalizing implied missing with
  | nil => exact Nat.le_refl implied
  | cons token rest ih =>
    cases missing with
    | zero => exact Nat.le_of_succ_le (ih (implied + 1) token.arity)
    | succ missing => exact ih implied (missing + token.arity)

/-- When no term is missing at the end, the tokens are terms: those that were missing, and one for each
    conjunction implied on the way. -/
theorem terms?_of_count {d : Domain} {implied missing : Nat} (h : (count implied missing d).2 = 0) :
    ∃ ts, terms? d = some ts ∧ ts.length + implied = missing + (count implied missing d).1 := by
  induction d generalizing implied missing with
  | nil =>
    have hm : missing = 0 := h
    exact ⟨[], rfl, by simp [count, hm]⟩
  | cons token rest ih =>
    cases missing with
    | zero =>
      rw [count] at h ⊢
      obtain ⟨ts, hts, hlen⟩ := ih h
      have := le_count rest (implied + 1) token.arity
      obtain ⟨us, hus, hulen⟩ := Term.put?_of_arity id token ts (by omega)
      exact ⟨us, by rw [terms?, hts]; exact hus, by omega⟩
    | succ missing =>
      rw [count] at h ⊢
      obtain ⟨ts, hts, hlen⟩ := ih h
      have := le_count rest implied (missing + token.arity)
      obtain ⟨us, hus, hulen⟩ := Term.put?_of_arity id token ts (by omega)
      exact ⟨us, by rw [terms?, hts]; exact hus, by omega⟩

/-! ### Normal forms -/

/-- A domain of terms normalizes to the spelling of their conjunction. -/
theorem normalize_of_terms? {d : Domain} {ts : List (Term Leaf)} (h : terms? d = some ts) :
    normalize d = .ok (Term.conj ts).spell := by
  cases ts with
  | nil =>
    have hd := eq_spell_of_terms? h
    subst hd
    rfl
  | cons t ts =>
    have hd : d = t.spell ++ ts.flatMap Term.spell := eq_spell_of_terms? h
    have hne : d.isEmpty = false := by
      rw [hd]
      cases t <;> rfl
    have hcount : count 0 1 d = (ts.length, 0) := by
      rw [hd, count_spell, count_terms, Nat.zero_add]
    have hspell : List.replicate ts.length .and ++ d = (Term.conj (t :: ts)).spell := by
      rw [spell_conj, List.flatMap_cons, hd]
    simp [normalize, hne, hcount, hspell]

/-- What `normalize` accepts are terms. -/
theorem normalize_eq_ok {d n : Domain} (h : normalize d = .ok n) :
    ∃ ts, terms? d = some ts ∧ n = (Term.conj ts).spell := by
  suffices hterms : ∃ ts, terms? d = some ts by
    obtain ⟨ts, hts⟩ := hterms
    rw [normalize_of_terms? hts] at h
    exact ⟨ts, hts, (Except.ok.inj h).symm⟩
  by_cases hd : d = []
  · subst hd
    exact ⟨[], rfl⟩
  · have hcount : (count 0 1 d).2 = 0 := by
      refine Decidable.byContradiction fun hne => ?_
      simp [normalize, hd, hne] at h
    obtain ⟨ts, hts, -⟩ := terms?_of_count hcount
    exact ⟨ts, hts⟩

theorem normalize_spell (t : Term Leaf) : normalize t.spell = .ok t.spell :=
  normalize_of_terms? (terms?_spell t)

theorem value?_of_terms? {d : Domain} {ts : List (Term Leaf)} (h : terms? d = some ts) (v : Leaf → Bool) :
    value? v d = some ((Term.conj ts).eval v) := by
  rw [value?, h, Term.eval_conj]
  rfl

end Domain
end RecordFilter
