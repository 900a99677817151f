import RecordFilter.Compile.Hierarchy

/-! The texts of stored paths: the ids from the root down to a record, each with a slash behind it. The ids can be read
    back from the text, and one text starts with another just where one path starts with the other. -/

namespace RecordFilter

namespace Text

/-- The integers of 64 bits. -/
def Fits (n : Int) : Prop := -(greatest + 1 : Int) ≤ n ∧ n ≤ greatest

instance (n : Int) : Decidable (Fits n) := inferInstanceAs (Decidable (_ ∧ _))

theorem isDigit_of_mem_repr {n : Nat} {c : Char} (h : c ∈ n.repr.toList) : isDigit c = true := by
  rw [Nat.toList_repr] at h
  exact Nat.isDigit_of_mem_toDigits (by decide) (by decide) h

theorem repr_ne_nil (n : Nat) : n.repr.toList ≠ [] := by
  rw [Nat.toList_repr]
  exact Nat.toDigits_ne_nil

/-- The digits of a natural are read back. -/
theorem natural?_repr (n : Nat) : natural? n.repr.toList = some n := by
  have hdigits : n.repr.toList.all isDigit = true := List.all_eq_true.mpr fun _ hc => isDigit_of_mem_repr hc
  have hvalue := Nat.ofDigitChars_toDigits (b := 10) (n := n) (by decide) (by decide)
  rw [Nat.ofDigitChars_eq_foldl, ← Nat.toList_repr] at hvalue
  unfold natural?
  rw [hdigits, List.isEmpty_eq_false_iff.mpr (repr_ne_nil n)]
  simpa [Nat.mul_comm] using hvalue

theorem toString_negSucc (n : Nat) : (toString (Int.negSucc n)).toList = '-' :: (n + 1).repr.toList :=
  String.toList_append

theorem toString_ne_nil (n : Int) : (toString n).toList ≠ [] := by
  cases n with
  | ofNat n => exact repr_ne_nil n
  | negSucc n =>
    rw [toString_negSucc]
    nofun

/-- An integer with a sign in front of its digits, if it has one, is read back. -/
theorem int64?_toString {n : Int} (h : Fits n) : int64? (toString n).toList = some n := by
  obtain ⟨hlow, hhigh⟩ := h
  cases n with
  | ofNat n =>
    show int64? n.repr.toList = _
    have hsmall : n ≤ greatest := Int.ofNat_le.mp hhigh
    unfold int64?
    split
    · rename_i rest heq
      cases isDigit_of_mem_repr (heq ▸ List.mem_cons_self : '-' ∈ n.repr.toList)
    · rename_i rest heq
      cases isDigit_of_mem_repr (heq ▸ List.mem_cons_self : '+' ∈ n.repr.toList)
    · unfold int64?.small?
      rw [natural?_repr]
      exact if_pos hsmall
  | negSucc n =>
    have hsmall : n + 1 ≤ greatest + 1 := by omega
    rw [toString_negSucc, int64?, natural?_repr]
    exact (if_pos hsmall).trans rfl

theorem toString_inj {a b : Int} (ha : Fits a) (hb : Fits b) (h : (toString a).toList = (toString b).toList) :
    a = b := by
  have hread := int64?_toString ha
  rw [h, int64?_toString hb] at hread
  exact (Option.some.inj hread).symm

theorem slash_not_mem_toString (n : Int) : '/' ∉ (toString n).toList := by
  have hdigits : ∀ k : Nat, '/' ∉ k.repr.toList := fun k h => by cases isDigit_of_mem_repr h
  cases n with
  | ofNat n => exact hdigits n
  | negSucc n =>
    rw [toString_negSucc, List.mem_cons, not_or]
    exact ⟨by decide, hdigits _⟩

end Text

namespace Compile

/-- The text of a stored path. -/
def pathText : List Int → List Char
  | [] => []
  | id :: rest => (toString id).toList ++ '/' :: pathText rest

/-- A path is made of digits, signs and slashes. -/
theorem of_mem_pathText {ids : List Int} {c : Char} (h : c ∈ pathText ids) :
    Text.isDigit c = true ∨ c = '-' ∨ c = '/' := by
  induction ids with
  | nil => cases h
  | cons id rest ih =>
    rcases List.mem_append.mp h with h | h
    · cases id with
      | ofNat n => exact .inl (Text.isDigit_of_mem_repr h)
      | negSucc n =>
        rw [Text.toString_negSucc] at h
        rcases List.mem_cons.mp h with rfl | h
        · exact .inr (.inl rfl)
        · exact .inl (Text.isDigit_of_mem_repr h)
    · rcases List.mem_cons.mp h with rfl | h
      · exact .inr (.inr rfl)
      · exact ih h

/-! ### Reading paths -/

theorem labels_go_append {label : List Char} (h : '/' ∉ label) (rest : List Char) :
    labels.go (label ++ '/' :: rest) = label :: labels.go rest := by
  induction label with
  | nil => rfl
  | cons c label ih =>
    rw [List.mem_cons, not_or] at h
    rw [List.cons_append, labels.go, if_neg (Ne.symm h.1), ih h.2]

/-- The labels of a path are the texts of its ids. -/
theorem labels_pathText (ids : List Int) : labels (pathText ids) = ids.map fun id => (toString id).toList := by
  unfold labels
  induction ids with
  | nil => rfl
  | cons id rest ih =>
    rw [pathText, labels_go_append (Text.slash_not_mem_toString id), List.filter_cons, ih,
      List.isEmpty_eq_false_iff.mpr (Text.toString_ne_nil id)]
    rfl

/-- So the ids are read back. -/
theorem labelIds?_pathText {ids : List Int} (h : ∀ id ∈ ids, Text.Fits id) :
    labelIds? (labels (pathText ids)) = some ids := by
  rw [labels_pathText]
  induction ids with
  | nil => rfl
  | cons id rest ih =>
    obtain ⟨hid, hrest⟩ := List.forall_mem_cons.mp h
    rw [List.map_cons, labelIds?, Text.int64?_toString hid, ih hrest]

/-! ### Paths that start alike -/

/-- Texts with a slash start alike just where the parts before it are the same and those after it start alike. -/
theorem prefix_slash_iff {u v x y : List Char} (hu : '/' ∉ u) (hv : '/' ∉ v) :
    u ++ '/' :: x <+: v ++ '/' :: y ↔ u = v ∧ x <+: y := by
  induction u generalizing v with
  | nil =>
    cases v with
    | nil => simp
    | cons d v =>
      rw [List.mem_cons, not_or] at hv
      simp [List.cons_prefix_cons, hv.1]
  | cons c u ih =>
    rw [List.mem_cons, not_or] at hu
    cases v with
    | nil => simp [List.cons_prefix_cons, Ne.symm hu.1]
    | cons d v =>
      rw [List.mem_cons, not_or] at hv
      simp only [List.cons_append, List.cons_prefix_cons, ih hu.2 hv.2, List.cons.injEq, and_assoc]

theorem pathText_prefix_iff {ids ids' : List Int} (h : ∀ id ∈ ids, Text.Fits id) (h' : ∀ id ∈ ids', Text.Fits id) :
    pathText ids <+: pathText ids' ↔ ids <+: ids' := by
  induction ids generalizing ids' with
  | nil => simp [pathText]
  | cons id rest ih =>
    obtain ⟨hid, hrest⟩ := List.forall_mem_cons.mp h
    cases ids' with
    | nil => simp [pathText]
    | cons id' rest' =>
      obtain ⟨hid', hrest'⟩ := List.forall_mem_cons.mp h'
      rw [pathText, pathText, prefix_slash_iff (Text.slash_not_mem_toString id) (Text.slash_not_mem_toString id'),
        List.cons_prefix_cons, ih hrest hrest']
      exact and_congr_left fun _ => ⟨Text.toString_inj hid hid', fun heq => heq ▸ rfl⟩

end Compile
end RecordFilter
