import RecordFilter.Sql.Name

/-! Quoted names are read back. A reader of a quoted name takes a quote that is written twice for one quote of the name,
    and stops at one that stands alone. So it stops nowhere inside of a name that was quoted, and quoted names next to
    each other stand for one sequence of names only. -/

namespace RecordFilter.Sql

/-! ### Reading -/

/-- Reads a name after its opening quote, up to a quote that stands alone, and gives the text after that too. -/
def readInside? : List Char → Option (List Char × List Char)
  | [] => none
  | '"' :: '"' :: rest => (readInside? rest).map fun read => ('"' :: read.1, read.2)
  | '"' :: rest => some ([], rest)
  | c :: rest => (readInside? rest).map fun read => (c :: read.1, read.2)

/-- Reads a quoted name in front of a text. -/
def readQuoted? (text : String) : Option (String × String) :=
  match text.toList with
  | '"' :: rest => (readInside? rest).map fun read => (String.ofList read.1, String.ofList read.2)
  | _ => none

/-- Inside of the quotes, the text of a name is read as the name; the reader ends where it ends in the text after it. -/
theorem readInside?_escapeName (name following : List Char) : readInside? (escapeName name ++ following) =
    (readInside? following).map fun read => (name ++ read.1, read.2) := by
  induction name with
  | nil => simp [escapeName]
  | cons c rest ih =>
    have hcons : escapeName (c :: rest) = (if c = '"' then ['"', '"'] else [c]) ++ escapeName rest := rfl
    by_cases hc : c = '"'
    · subst hc
      rw [hcons, if_pos rfl]
      simp [readInside?, ih, Function.comp_def]
    · rw [hcons, if_neg hc]
      simp [readInside?, ih, hc, Function.comp_def]

theorem readInside?_quote {following : List Char} (h : following.head? ≠ some '"') :
    readInside? ('"' :: following) = some ([], following) := by
  cases following with
  | nil => rfl
  | cons c rest =>
    have hc : c ≠ '"' := by simpa using h
    simp [readInside?, hc]

variable {name following : String}

theorem quote_toList (name : String) : (quote name).toList = '"' :: (escapeName name.toList ++ ['"']) := by
  simp [quote]

/-- A quoted name is read up to its closing quote, unless another quote comes right after it. -/
theorem readQuoted?_quote (h : following.toList.head? ≠ some '"') :
    readQuoted? (quote name ++ following) = some (name, following) := by
  have htext : (quote name ++ following).toList = '"' :: (escapeName name.toList ++ '"' :: following.toList) := by
    simp [quote_toList]
  simp only [readQuoted?, htext, readInside?_escapeName, readInside?_quote h, Option.map_some, List.append_nil,
    String.ofList_toList]

/-- Two quoted names with texts after them are equal part by part. -/
theorem quote_append_inj {name' following' : String} (h : following.toList.head? ≠ some '"')
    (h' : following'.toList.head? ≠ some '"') (heq : quote name ++ following = quote name' ++ following') :
    name = name' ∧ following = following' := by
  have hread : readQuoted? (quote name ++ following) = some (name, following) := readQuoted?_quote h
  rw [heq, readQuoted?_quote h'] at hread
  simpa [eq_comm] using hread

theorem quote_inj {name' : String} (h : quote name = quote name') : name = name' := by
  have hends : quote name ++ "" = quote name' ++ "" := congrArg (· ++ "") h
  exact (quote_append_inj (by simp) (by simp) hends).1

theorem qualified_inj {tableAlias column tableAlias' column' : String}
    (h : qualified tableAlias column = qualified tableAlias' column') : tableAlias = tableAlias' ∧ column = column' := by
  simp only [qualified, String.append_assoc] at h
  obtain ⟨halias, hrest⟩ := quote_append_inj (by simp) (by simp) h
  exact ⟨halias, quote_inj ((String.append_right_inj _).mp hrest)⟩

theorem aliased_inj {table tableAlias table' tableAlias' : String}
    (h : aliased table tableAlias = aliased table' tableAlias') : table = table' ∧ tableAlias = tableAlias' := by
  have hshort (name other otherAlias : String) : quote name ≠ quote other ++ " AS " ++ quote otherAlias := by
    intro heq
    rw [String.append_assoc, ← String.append_empty (s := quote name)] at heq
    obtain ⟨-, hrest⟩ := quote_append_inj (by simp) (by simp) heq
    simp [String.ext_iff] at hrest
  unfold aliased at h
  split at h <;> split at h
  · rename_i htable htable'
    obtain rfl := quote_inj h
    exact ⟨rfl, htable.symm.trans htable'⟩
  · exact absurd h (hshort _ _ _)
  · exact absurd h.symm (hshort _ _ _)
  · rw [String.append_assoc, String.append_assoc] at h
    obtain ⟨htable, hrest⟩ := quote_append_inj (by simp) (by simp) h
    exact ⟨htable, quote_inj ((String.append_right_inj _).mp hrest)⟩

/-- A quoted name is read as the name and nothing more, whatever is in it: the reader never ends before the closing
    quote. So a column's alias and name, and a table and its alias, are known from their texts. -/
theorem quoting_unambiguous :
    (∀ name following : String, following.toList.head? ≠ some '"' →
      readQuoted? (quote name ++ following) = some (name, following)) ∧
    (∀ name following : List Char, readInside? (escapeName name ++ following) =
      (readInside? following).map fun read => (name ++ read.1, read.2)) ∧
    (∀ tableAlias column tableAlias' column' : String,
      qualified tableAlias column = qualified tableAlias' column' → tableAlias = tableAlias' ∧ column = column') ∧
    ∀ table tableAlias table' tableAlias' : String,
      aliased table tableAlias = aliased table' tableAlias' → table = table' ∧ tableAlias = tableAlias' :=
  ⟨fun _ _ => readQuoted?_quote, readInside?_escapeName, fun _ _ _ _ => qualified_inj, fun _ _ _ _ => aliased_inj⟩

/-- A name that looks like two names is still one. -/
theorem quoting_unambiguous_dotted :
    ".\"c\"".toList.head? ≠ some '"' ∧ readQuoted? (quote "a\".\"b" ++ ".\"c\"") = some ("a\".\"b", ".\"c\"") ∧
    qualified "a\".\"b" "c" ≠ qualified "a" "b\".\"c" := by
  obtain ⟨hread, -, hqualified, -⟩ := quoting_unambiguous
  refine ⟨by decide, hread _ _ (by decide), fun h => ?_⟩
  exact absurd (hqualified _ _ _ _ h).1 (by decide)

end RecordFilter.Sql
