import Mathlib.Order.Bounds.Defs
import RecordFilter.Proofs.Domain.Terms

/-! Which sequences of tokens are domains: rows of complete terms, one after the other. The count from the left finds
    them without reading the terms. Where it leaves operands missing, as many leaves complete the domain, and since a
    token supplies at most one operand, no fewer do. -/

namespace RecordFilter.Domain

variable {d : Domain} {implied missing : Nat}

/-! ### Counting on -/

/-- Counting goes on where the tokens before have left it. -/
theorem count_append (d e : Domain) (implied missing : Nat) :
    count implied missing (d ++ e) = count (count implied missing d).1 (count implied missing d).2 e := by
  induction d generalizing implied missing with
  | nil => rfl
  | cons token rest ih =>
    cases missing with
    | zero => exact ih (implied + 1) token.arity
    | succ missing => exact ih implied (missing + token.arity)

/-- A token supplies at most one of the operands that are missing. -/
theorem missing_le_count (d : Domain) (implied missing : Nat) :
    missing ≤ (count implied missing d).2 + d.length := by
  induction d generalizing implied missing with
  | nil => exact Nat.le_refl missing
  | cons token rest ih =>
    cases missing with
    | zero => exact Nat.zero_le _
    | succ missing =>
      have := ih implied (missing + token.arity)
      simp only [count, List.length_cons]
      omega

/-- As many leaves as operands are missing supply them all. -/
theorem count_leaves (ls : List Leaf) (implied : Nat) :
    count implied ls.length (ls.map .leaf) = (implied, 0) := by
  induction ls with
  | nil => rfl
  | cons l ls ih => exact ih

/-! ### What is accepted -/

/-- A domain with tokens is accepted just where no operand is missing at its end. -/
theorem normalize_isOk_iff (hd : d ≠ []) : (∃ n, normalize d = .ok n) ↔ (count 0 1 d).2 = 0 := by
  rw [normalize, if_neg (by simpa using hd)]
  dsimp only
  split
  · rename_i hcount
    exact ⟨fun _ => hcount, fun _ => ⟨_, rfl⟩⟩
  · rename_i hcount
    refine ⟨fun h => ?_, fun h => absurd h hcount⟩
    obtain ⟨n, hn⟩ := h
    cases hn

/-- What is refused has tokens, and the error says how many operands are missing at their end. -/
theorem normalize_eq_error {e : Error} (h : normalize d = .error e) :
    d ≠ [] ∧ e = .malformed (.unbalanced d.text (count 0 1 d).2) := by
  have hd : d ≠ [] := by
    rintro rfl
    cases h
  rw [normalize, if_neg (by simpa using hd)] at h
  dsimp only at h
  split at h <;> cases h
  exact ⟨hd, rfl⟩

/-- The operands that are missing at the end are the fewest leaves that complete a domain with tokens. -/
theorem isLeast_missing (hd : d ≠ []) :
    IsLeast {k | ∃ ls : List Leaf, ls.length = k ∧ ∃ n, normalize (d ++ ls.map .leaf) = .ok n} (count 0 1 d).2 := by
  have hcomplete : ∀ ls : List Leaf, (∃ n, normalize (d ++ ls.map .leaf) = .ok n) ↔
      (count (count 0 1 d).1 (count 0 1 d).2 (ls.map .leaf)).2 = 0 := by
    intro ls
    rw [normalize_isOk_iff (by simp [hd]), count_append]
  constructor
  · refine ⟨List.replicate (count 0 1 d).2 ⟨"", .eq, .value .null⟩, List.length_replicate, (hcomplete _).mpr ?_⟩
    have hleaves := count_leaves (List.replicate (count 0 1 d).2 ⟨"", .eq, .value .null⟩) (count 0 1 d).1
    rw [List.length_replicate] at hleaves
    rw [hleaves]
  · rintro k ⟨ls, rfl, haccepted⟩
    have hsupplied := missing_le_count (ls.map .leaf) (count 0 1 d).1 (count 0 1 d).2
    rw [(hcomplete ls).mp haccepted, Nat.zero_add, List.length_map] at hsupplied
    exact hsupplied

/-! ### The whole -/

/-- Normalizing accepts just the rows of complete terms. Of a row it makes one term, the operators that were left out
    in front of it, which stays as it is and stands for the conjunction of the terms; a domain without tokens becomes
    the constant that always holds. Of everything else it says how many leaves it takes at least to complete it. -/
theorem normalize_grammar (d : Domain) :
    ((∃ n, normalize d = .ok n) ↔ ∃ ts : List (Term Leaf), d = ts.flatMap Term.spell) ∧
    (∀ ts : List (Term Leaf), d = ts.flatMap Term.spell →
      ∃ n, normalize d = .ok n ∧
        (ts = [] → n = [.true]) ∧ (ts ≠ [] → n = List.replicate (ts.length - 1) .and ++ d) ∧
        normalize n = .ok n ∧ ∃ t : Term Leaf, n = t.spell ∧ ∀ v, t.eval v = ts.all (Term.eval v)) ∧
    ∀ e, normalize d = .error e →
      ∃ missing, e = .malformed (.unbalanced d.text missing) ∧
        IsLeast {k | ∃ ls : List Leaf, ls.length = k ∧ ∃ n, normalize (d ++ ls.map .leaf) = .ok n} missing := by
  refine ⟨⟨?_, ?_⟩, ?_, fun e he => ?_⟩
  · rintro ⟨n, hn⟩
    obtain ⟨ts, hts, -⟩ := normalize_eq_ok hn
    exact ⟨ts, eq_spell_of_terms? hts⟩
  · rintro ⟨ts, rfl⟩
    exact ⟨_, normalize_of_terms? (terms?_flatMap_spell ts)⟩
  · rintro ts rfl
    refine ⟨_, normalize_of_terms? (terms?_flatMap_spell ts), ?_, fun hts => ?_, normalize_spell _, _, rfl, fun v => ?_⟩
    · rintro rfl
      rfl
    · obtain ⟨t, ts, rfl⟩ := List.exists_cons_of_ne_nil hts
      exact spell_conj t ts
    · exact Term.eval_conj v ts
  · obtain ⟨hd, rfl⟩ := normalize_eq_error he
    exact ⟨_, rfl, isLeast_missing hd⟩

/-- A term and a disjunction of a negation with nothing behind it: one operand is missing. -/
theorem normalize_grammar_or :
    let d : Domain := [.leaf ⟨"a", .eq, .value .null⟩, .or, .not, .leaf ⟨"b", .eq, .value .null⟩]
    normalize d = .error (.malformed (.unbalanced d.text 1)) ∧
      IsLeast {k | ∃ ls : List Leaf, ls.length = k ∧ ∃ n, normalize (d ++ ls.map .leaf) = .ok n} 1 := by
  intro d
  have herror : normalize d = .error (.malformed (.unbalanced d.text 1)) := rfl
  obtain ⟨missing, heq, hleast⟩ := (normalize_grammar d).2.2 _ herror
  cases heq
  exact ⟨herror, hleast⟩

end RecordFilter.Domain
