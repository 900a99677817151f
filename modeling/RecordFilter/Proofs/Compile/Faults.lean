import RecordFilter.Compile.Reduce
import RecordFilter.Proofs.Domain.Inward

/-! The errors that lie in a domain itself: those of conditions on columns, of normalizing and combining domains, and of
    deciding whether a domain is false. None of them is an error of the two stacks or of the schema. -/

namespace RecordFilter

/-- Errors in what the compiler was set up with: the schema, the configuration, or the name of a model. -/
def Error.isMetadata : Error → Bool
  | .unknownModel _ | .schema _ | .config _ => true
  | _ => false

namespace Compile
open Sql

variable {r : Registry} {m : Model} {l : Leaf} {p : Place} {ctx : Context} {e : Error}

/-- The errors of the two stacks. -/
def StackError (e : Error) : Prop := e = .malformed .missingOperands ∨ e = .malformed .notOneCondition

/-- The errors that lie in a domain: its tokens do not make up terms, or a leaf cannot be read. -/
inductive OfDomain : Error → Prop
  | malformed {fault} : fault ≠ .missingOperands → fault ≠ .notOneCondition → OfDomain (.malformed fault)
  | leaf (text fault) : OfDomain (.invalidLeaf text fault)
  | field (model field text) : OfDomain (.invalidField model field text)

namespace OfDomain

theorem not_stackError (h : OfDomain e) : ¬StackError e := by
  rintro (rfl | rfl) <;> cases h <;> contradiction

theorem isMetadata_eq_false (h : OfDomain e) : e.isMetadata = false := by
  cases h <;> rfl

theorem isStructural (h : OfDomain e) : e.isStructural := by
  cases h <;> rfl

end OfDomain

/-! ### Conditions on columns -/

theorem inValues_error {column : Column} {v : Json} {isBoolean : Bool} (h : inValues l column v isBoolean = .error e) :
    OfDomain e := by
  unfold inValues at h
  dsimp only at h
  split at h
  · cases h
  · split at h <;> cases h
    exact .leaf _ _
  · cases h
    exact .leaf _ _

theorem inSubquery_error {column : Column} {sub : Select} (h : inSubquery l column sub = .error e) : OfDomain e := by
  unfold inSubquery at h
  split at h <;> cases h
  exact .leaf _ _

theorem comparison_error {column : Column} {v : Json} {unaccent : Bool} (h : comparison l column v unaccent = .error e) :
    OfDomain e := by
  unfold comparison at h
  dsimp only at h
  split at h
  · cases h
    exact .leaf _ _
  · split at h <;> cases h

theorem equality_error {column : Column} {v : Json} {isBoolean unaccent : Bool}
    (h : equality l column v isBoolean unaccent = .error e) : OfDomain e := by
  unfold equality at h
  split at h
  · cases h
  · cases h
  · cases h
  · cases h
  · cases h
  · exact comparison_error h

theorem literalLeaf_error {column : Column} {v : Json} {isBoolean unaccent : Bool}
    (h : literalLeaf l column v isBoolean unaccent = .error e) : OfDomain e := by
  unfold literalLeaf at h
  split at h
  · exact inValues_error h
  · exact inValues_error h
  · cases h
    exact .leaf _ _
  · cases h
    exact .leaf _ _
  · split at h
    · cases h
    · split at h
      · exact equality_error h
      · exact comparison_error h
  · split at h
    · exact equality_error h
    · exact comparison_error h
  · split at h
    · exact equality_error h
    · exact comparison_error h
  · exact comparison_error h

theorem plainCondition_error (h : plainCondition l p ctx = .error e) : OfDomain e := by
  unfold plainCondition at h
  split at h
  · cases h
    exact .field _ _ _
  · split at h
    · exact inSubquery_error h
    · exact literalLeaf_error h

theorem translatedCondition_error (h : translatedCondition l p ctx = .error e) : OfDomain e := by
  unfold translatedCondition at h
  dsimp only at h
  split at h
  · cases h
    exact .leaf _ _
  · split at h
    · split at h
      · split at h <;> cases h
        exact .leaf _ _
      · cases h
        exact .leaf _ _
    · split at h <;> cases h
      exact .malformed nofun nofun

/-! ### Whole domains -/

theorem normalize_error {d : Domain} (h : Domain.normalize d = .error e) : OfDomain e := by
  unfold Domain.normalize at h
  split at h
  · cases h
  · dsimp only at h
    split at h <;> cases h
    exact .malformed nofun nofun

theorem distributeNot_error {d : Domain} (h : Domain.distributeNot d = .error e) : OfDomain e :=
  normalize_error (Domain.distributeNot_eq_error.mp h)

theorem members_error {skip decide : Domain → Bool} {ds : List Domain}
    (h : Domain.members skip decide ds = .error e) : OfDomain e := by
  induction ds with
  | nil => cases h
  | cons d ds ih =>
    unfold Domain.members at h
    split at h
    · exact ih h
    · split at h
      · cases h
      · split at h
        · exact ih h
        · split at h
          · rename_i hn
            cases h
            exact normalize_error hn
          · split at h
            · rename_i hm
              cases h
              exact ih hm
            · cases h
            · cases h

theorem withActive_error {d : Domain} (h : withActive r ctx m d = .error e) : OfDomain e := by
  unfold withActive at h
  split at h
  · split at h
    · cases h
    · split at h
      · cases h
      · unfold Domain.allOf at h
        split at h <;> cases h
        rename_i hm
        exact members_error hm
  · cases h

theorem pathDomain_error {paths : List (Int × String)} (h : pathDomain paths = .error e) : OfDomain e := by
  unfold pathDomain Domain.anyOf at h
  split at h <;> cases h
  rename_i hm
  exact members_error hm

theorem applyToken_error {token : Token} {vs : List Verdict} (h : Domain.applyToken token vs = .error e) :
    e = .malformed .noOperands := by
  unfold Domain.applyToken at h
  split at h <;> cases h
  rfl

theorem verdicts_error {d : Domain} (h : Domain.verdicts d = .error e) : e = .malformed .noOperands := by
  induction d with
  | nil => cases h
  | cons token d ih =>
    unfold Domain.verdicts at h
    split at h
    · rename_i hv
      cases h
      exact ih hv
    · exact applyToken_error h

theorem isFalse_error {d : Domain} (h : d.isFalse = .error e) : OfDomain e := by
  unfold Domain.isFalse at h
  split at h
  · rename_i hn
    cases h
    exact normalize_error hn
  · split at h
    · rename_i hv
      cases h
      exact verdicts_error hv ▸ .malformed nofun nofun
    · cases h
      exact .malformed nofun nofun
    · cases h

end Compile
end RecordFilter
