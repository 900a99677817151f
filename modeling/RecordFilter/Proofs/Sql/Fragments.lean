import RecordFilter.Sql.Query

/-! Fragments put together: the `%s` of the parts stay, and none comes up where two parts meet as long as no
    `%` stands before an `s` there. So a fragment has as many `%s` as values when its parts have, and the
    texts between them, names above all, hold no `%`. -/

namespace RecordFilter.Sql

/-! ### Texts without `%` -/

/-- No `%` is in the text. -/
def Clean (s : String) : Prop := '%' ∉ s.toList

instance (s : String) : Decidable (Clean s) := inferInstanceAs (Decidable ('%' ∉ s.toList))

theorem clean_append {a b : String} : Clean (a ++ b) ↔ Clean a ∧ Clean b := by
  simp [Clean, not_or]

theorem clean_quote {name : String} (h : Clean name) : Clean (quote name) := by
  intro hmem
  unfold quote at hmem
  rw [String.toList_ofList] at hmem
  rcases List.mem_append.mp hmem with hmem | hmem
  · rcases List.mem_cons.mp hmem with hc | hmem
    · cases hc
    · obtain ⟨c, hc, hin⟩ := List.mem_flatMap.mp hmem
      split at hin
      · simp at hin
      · rw [← List.mem_singleton.mp hin] at hc
        exact h hc
  · simp at hmem

theorem clean_qualified {tableAlias column : String} (ht : Clean tableAlias) (hc : Clean column) :
    Clean (qualified tableAlias column) :=
  clean_append.mpr ⟨clean_append.mpr ⟨clean_quote ht, by decide⟩, clean_quote hc⟩

theorem clean_aliased {table tableAlias : String} (ht : Clean table) (ha : Clean tableAlias) :
    Clean (aliased table tableAlias) := by
  unfold aliased
  split
  · exact clean_quote ht
  · exact clean_append.mpr ⟨clean_append.mpr ⟨clean_quote ht, by decide⟩, clean_quote ha⟩

theorem clean_intercalate {sep : String} (hsep : Clean sep) {ss : List String} (h : ∀ s ∈ ss, Clean s) :
    Clean (sep.intercalate ss) := by
  induction ss with
  | nil => rw [String.intercalate_nil]; decide
  | cons s rest ih =>
    have hs := h s List.mem_cons_self
    have hrest := ih fun s' hs' => h s' (List.mem_cons_of_mem _ hs')
    cases rest with
    | nil => rwa [String.intercalate_singleton]
    | cons s' rest =>
      rw [String.intercalate_cons_cons]
      exact clean_append.mpr ⟨clean_append.mpr ⟨hs, hsep⟩, hrest⟩

theorem clean_repr (n : Nat) : Clean (Nat.repr n) := by
  intro h
  rw [Nat.toList_repr] at h
  have hdigit := Nat.isDigit_of_mem_toDigits (b := 10) (by decide) (by decide) h
  cases hdigit

theorem clean_keyword (op : Operator) : Clean op.keyword := by cases op <;> decide

theorem mem_of_mem_takeBytes {room : Nat} {cs : List Char} {c : Char} (h : c ∈ takeBytes room cs) : c ∈ cs := by
  induction cs generalizing room with
  | nil => cases h
  | cons c' rest ih =>
    unfold takeBytes at h
    split at h
    · rcases List.mem_cons.mp h with rfl | h
      · exact List.mem_cons_self
      · exact List.mem_cons_of_mem _ (ih h)
    · cases h

theorem mark_not_mem_hexDigits (count n : Nat) : '%' ∉ Text.hexDigits count n := fun h =>
  absurd (Text.isLowerHex_of_mem_hexDigits h) (by decide)

theorem clean_makeAlias {tableAlias link : String} (ht : Clean tableAlias) (hl : Clean link) :
    Clean (makeAlias tableAlias link) := by
  have hfull : Clean (tableAlias ++ "__" ++ link) := clean_append.mpr ⟨clean_append.mpr ⟨ht, by decide⟩, hl⟩
  unfold makeAlias shorten
  split
  · exact hfull
  · intro hmem
    rw [String.toList_ofList] at hmem
    rcases List.mem_append.mp hmem with hmem | hmem
    · rcases List.mem_append.mp hmem with hmem | hmem
      · exact hfull (mem_of_mem_takeBytes hmem)
      · simp at hmem
    · exact mark_not_mem_hexDigits _ _ hmem

/-- A text that can stand after any fragment. -/
structure Tail (s : String) : Prop where
  clean : Clean s
  head : s.toList.head? ≠ some 's'

instance (s : String) : Decidable (Tail s) :=
  decidable_of_iff (Clean s ∧ s.toList.head? ≠ some 's') ⟨fun h => ⟨h.1, h.2⟩, fun h => ⟨h.clean, h.head⟩⟩

theorem Tail.append {a b : String} (ha : Tail a) (hne : a ≠ "") (hb : Clean b) : Tail (a ++ b) := by
  refine ⟨clean_append.mpr ⟨ha.clean, hb⟩, ?_⟩
  have hhead := ha.head
  rw [String.toList_append]
  cases hlist : a.toList with
  | nil => exact absurd (String.toList_eq_nil_iff.mp hlist) hne
  | cons c rest => rwa [hlist] at hhead

/-- A keyword with blanks around it. -/
theorem Tail.spaced {keyword : String} (h : Clean keyword) : Tail (" " ++ keyword ++ " ") := by
  rw [String.append_assoc]
  exact Tail.append (by decide) (by decide) (clean_append.mpr ⟨h, by decide⟩)

namespace Fragment

/-! ### Parts -/

@[simp]
theorem sql_append (a b : Fragment) : (a ++ b).sql = a.sql ++ b.sql := rfl

@[simp]
theorem params_append (a b : Fragment) : (a ++ b).params = a.params ++ b.params := rfl

@[simp]
theorem sql_text (sql : String) : (text sql).sql = sql := rfl

@[simp]
theorem params_text (sql : String) : (text sql).params = [] := by rw [text]

theorem ext_iff {a b : Fragment} : a = b ↔ a.sql = b.sql ∧ a.params = b.params := by
  constructor
  · rintro rfl
    exact ⟨rfl, rfl⟩
  · obtain ⟨sql, params⟩ := a
    rintro ⟨rfl, rfl⟩
    rfl

theorem params_unaccented (on : Bool) (f : Fragment) : (unaccented on f).params = f.params := by
  cases on <;> simp [unaccented]

/-- Neither a column nor its text binds a value. -/
theorem params_cast (on : Bool) (c : Column) : (if on then Expr.cast c else .column c).fragment.params = [] := by
  cases on <;> rfl

/-! ### Marks -/

theorem countMarks_cons {c : Char} {rest : List Char} (h : c ≠ '%' ∨ rest.head? ≠ some 's') :
    countMarks (c :: rest) = countMarks rest := by
  rw [countMarks]
  rintro rest' rfl rfl
  simp at h

theorem countMarks_eq_zero {cs : List Char} (h : '%' ∉ cs) : countMarks cs = 0 := by
  induction cs with
  | nil => rfl
  | cons c rest ih =>
    have hc : c ≠ '%' := fun hc => h (hc ▸ List.mem_cons_self)
    rw [countMarks_cons (Or.inl hc), ih fun hmem => h (List.mem_cons_of_mem _ hmem)]

/-- A mark does not lie across two texts if the first one does not end in `%` or the second one does not
    start with `s`. -/
theorem countMarks_append {as bs : List Char} (h : as.getLast? ≠ some '%' ∨ bs.head? ≠ some 's') :
    countMarks (as ++ bs) = countMarks as + countMarks bs := by
  fun_induction countMarks as with
  | case1 => simp
  | case2 rest ih =>
    have h' : rest.getLast? ≠ some '%' ∨ bs.head? ≠ some 's' :=
      h.imp_left fun hlast hrest => hlast (by simp [List.getLast?_cons, hrest])
    show countMarks (rest ++ bs) + 1 = _
    rw [ih h']
    omega
  | case3 c rest hc ih =>
    have h' : rest.getLast? ≠ some '%' ∨ bs.head? ≠ some 's' :=
      h.imp_left fun hlast hrest => hlast (by simp [List.getLast?_cons, hrest])
    rw [List.cons_append, countMarks_cons ?_, ih h']
    by_cases hmark : c = '%'
    · right
      cases rest with
      | nil => exact h.resolve_left (by simp [hmark])
      | cons d rest =>
        intro hd
        exact hc rest hmark (by simp_all)
    · exact Or.inl hmark

/-! ### Balance -/

/-- The fragment has as many placeholders as values. -/
def Balanced (f : Fragment) : Prop := f.placeholderCount = f.params.length

theorem balanced_text {s : String} (h : Clean s) : (text s).Balanced := countMarks_eq_zero h

theorem balanced_param (p : Param) : (param p).Balanced := by
  show countMarks "%s".toList = 1
  decide

theorem balanced_literal (b : Bool) : (literal b).Balanced := by cases b <;> exact balanced_text (by decide)

namespace Balanced
variable {f g : Fragment}

theorem append (hf : f.Balanced) (hg : g.Balanced)
    (h : f.sql.toList.getLast? ≠ some '%' ∨ g.sql.toList.head? ≠ some 's') : (f ++ g).Balanced := by
  show countMarks (f.sql ++ g.sql).toList = (f.params ++ g.params).length
  rw [String.toList_append, countMarks_append h, List.length_append]
  exact congr (congrArg _ hf) hg

theorem getLast?_of_clean {s : String} (h : Clean s) : s.toList.getLast? ≠ some '%' := fun hlast =>
  h (List.mem_of_getLast? hlast)

/-- Text without `%` in front. -/
theorem text_append (hf : f.Balanced) {s : String} (h : Clean s) : (text s ++ f).Balanced :=
  (balanced_text h).append hf (Or.inl (getLast?_of_clean h))

/-- Text behind. -/
theorem append_text (hf : f.Balanced) {s : String} (h : Tail s) : (f ++ text s).Balanced :=
  hf.append (balanced_text h.clean) (Or.inr h.head)

/-- Two fragments with text between them. -/
theorem append_text_append (hf : f.Balanced) {s : String} (h : Tail s) (hne : s ≠ "") (hg : g.Balanced) :
    (f ++ text s ++ g).Balanced := by
  refine (hf.append_text h).append hg (Or.inl ?_)
  rw [sql_append, String.toList_append, sql_text, List.getLast?_append]
  cases hlast : s.toList.getLast? with
  | none => exact absurd (String.toList_eq_nil_iff.mp (List.getLast?_eq_none_iff.mp hlast)) hne
  | some c =>
    have hc := getLast?_of_clean h.clean
    rwa [hlast] at hc

theorem enclose (hf : f.Balanced) {a b : String} (ha : Clean a) (hb : Tail b) : (text a ++ f ++ text b).Balanced :=
  (hf.text_append ha).append_text hb

end Balanced
end Fragment
end RecordFilter.Sql
