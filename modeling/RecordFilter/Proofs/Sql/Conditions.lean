import RecordFilter.Proofs.Sql.Fragments

/-! Conditions and subqueries have as many placeholders as values when the sets in them do and the names in
    them hold no `%`. -/

namespace RecordFilter.Sql

/-! ### Names -/

/-- No name of the column holds a `%`. -/
structure Column.Clean (c : Column) : Prop where
  tableAlias : Sql.Clean c.tableAlias
  name : Sql.Clean c.name

theorem Column.Clean.text {c : Column} (h : c.Clean) : Sql.Clean c.text := clean_qualified h.tableAlias h.name

/-- The column that an expression reads. -/
def Expr.source : Expr → Column
  | .column c | .cast c | .translated c _ => c

structure Join.Clean (j : Join) : Prop where
  tableAlias : Sql.Clean j.tableAlias
  sourceAlias : Sql.Clean j.sourceAlias
  sourceColumn : Sql.Clean j.sourceColumn
  targetTable : Sql.Clean j.targetTable
  targetColumn : Sql.Clean j.targetColumn

theorem Join.Clean.text {j : Join} (h : j.Clean) : Sql.Clean j.text := by
  have htable := clean_aliased h.targetTable h.tableAlias
  have hsource := clean_qualified h.sourceAlias h.sourceColumn
  have htarget := clean_qualified h.tableAlias h.targetColumn
  show Sql.Clean ("LEFT JOIN " ++ aliased j.targetTable j.tableAlias ++ " ON (" ++
    qualified j.sourceAlias j.sourceColumn ++ " = " ++ qualified j.tableAlias j.targetColumn ++ ")")
  simp +decide only [clean_append, htable, hsource, htarget]

structure Tables.Clean (t : Tables) : Prop where
  table : Sql.Clean t.table
  tableAlias : Sql.Clean t.tableAlias
  joins : ∀ j ∈ t.joins, j.Clean

theorem Tables.Clean.text {t : Tables} (h : t.Clean) : Sql.Clean t.text := by
  refine clean_intercalate (by decide) fun s hs => ?_
  rcases List.mem_cons.mp hs with rfl | hs
  · exact clean_aliased h.table h.tableAlias
  · obtain ⟨j, hj, rfl⟩ := List.mem_map.mp hs
    exact (h.joins j hj).text

structure Link.Clean (l : Link) : Prop where
  table : Sql.Clean l.table
  tableAlias : Sql.Clean l.tableAlias
  column1 : Sql.Clean l.column1
  column2 : Sql.Clean l.column2
  owner : Sql.Clean l.owner

/-- The order of a window holds no `%`. -/
def Window.Clean (w : Window) : Prop := ∀ order, w.order = some order → Sql.Clean order

theorem Window.Clean.text {w : Window} (h : w.Clean) : Tail w.text := by
  -- Each part is empty or starts with a blank.
  have part : ∀ {a b : String}, Tail a → Tail b → Tail (a ++ b) := fun {a b} ha hb => by
    by_cases hne : a = ""
    · subst hne
      rwa [String.empty_append]
    · exact ha.append hne hb.clean
  have word : ∀ {a b : String}, Tail a → a ≠ "" → Sql.Clean b → Tail (a ++ b) := Tail.append
  have none : Tail "" := by decide
  unfold Window.text
  refine part (part ?_ ?_) ?_
  · split
    · rename_i order horder
      exact word (by decide) (by decide) (h order horder)
    · exact none
  · split
    · exact word (by decide) (by decide) (clean_repr _)
    · exact none
  · split
    · exact word (by decide) (by decide) (clean_repr _)
    · exact none

/-! ### Expressions and sets -/

open Fragment

theorem Expr.balanced {x : Expr} (h : x.source.Clean) : x.fragment.Balanced := by
  have htext := h.text
  cases x with
  | column c =>
    rw [Expr.fragment]
    exact balanced_text htext
  | cast c =>
    rw [Expr.fragment]
    exact balanced_text (clean_append.mpr ⟨htext, by decide⟩)
  | translated c lang =>
    rw [Expr.fragment]
    split
    · exact balanced_text (clean_append.mpr ⟨htext, by decide⟩)
    · have hmark : "->>%s, " = "->>" ++ "%s" ++ ", " := rfl
      have hparts : (⟨"COALESCE(" ++ c.text ++ "->>%s, " ++ c.text ++ "->>'en_US')", [.text lang]⟩ : Fragment) =
          Fragment.text ("COALESCE(" ++ c.text ++ "->>") ++ Fragment.param (.text lang) ++
            Fragment.text (", " ++ (c.text ++ "->>'en_US')")) := by
        rw [Fragment.ext_iff, hmark]
        simp only [sql_append, sql_text, params_append, params_text, Fragment.param, String.append_assoc]
        exact ⟨trivial, rfl⟩
      rw [hparts]
      refine (balanced_param _).enclose (clean_append.mpr ⟨clean_append.mpr ⟨by decide, htext⟩, by decide⟩) ?_
      exact Tail.append (by decide) (by decide) (clean_append.mpr ⟨htext, by decide⟩)

theorem unaccented_balanced {f : Fragment} (h : f.Balanced) (on : Bool) : (unaccented on f).Balanced := by
  unfold unaccented
  split
  · exact h.enclose (by decide) (by decide)
  · exact h

theorem countMarks_placeholders (n : Nat) : countMarks (placeholders n).toList = n := by
  unfold placeholders
  induction n with
  | zero => rfl
  | succ n ih =>
    rw [List.replicate_succ]
    cases n with
    | zero =>
      rw [List.replicate_zero, String.intercalate_singleton]
      decide
    | succ n =>
      rw [List.replicate_succ, String.intercalate_cons_cons, ← List.replicate_succ, String.toList_append,
        countMarks_append (Or.inl (by decide)), ih]
      have hfirst : countMarks ("%s" ++ ",").toList = 1 := by decide
      omega

theorem params_balanced (ps : List Param) : (Values.params ps).fragment.Balanced := countMarks_placeholders ps.length

/-! ### Conditions -/

theorem literal_balanced (b : Bool) : (Cond.literal b).fragment.Balanced := Fragment.balanced_literal b

/-- The text of a column with more text behind it, as in the tests for null and `FALSE`. -/
theorem balanced_column {c : Column} (h : c.Clean) {s : String} (hs : Clean s) :
    (Fragment.text (c.text ++ s)).Balanced :=
  balanced_text (clean_append.mpr ⟨h.text, hs⟩)

theorem isNull_balanced {c : Column} (h : c.Clean) : (Cond.isNull c).fragment.Balanced :=
  balanced_column h (by decide)

theorem notNull_balanced {c : Column} (h : c.Clean) : (Cond.notNull c).fragment.Balanced :=
  balanced_column h (by decide)

theorem isFalse_balanced {c : Column} (h : c.Clean) : (Cond.isFalse c).fragment.Balanced :=
  balanced_column h (by decide)

theorem notFalse_balanced {c : Column} (h : c.Clean) : (Cond.notFalse c).fragment.Balanced :=
  balanced_column h (by decide)

theorem compare_balanced {x : Expr} (h : x.source.Clean) (op : Operator) (p : Param) (unaccent : Bool) :
    (Cond.compare x op p unaccent).fragment.Balanced := by
  have hne : " " ++ op.keyword ++ " " ≠ "" := by simp
  exact (unaccented_balanced (Expr.balanced h) _).append_text_append (Tail.spaced (clean_keyword op)) hne
    (unaccented_balanced (balanced_param p) _)

theorem member_balanced {x : Expr} (h : x.source.Clean) (positive : Bool) {set : Values}
    (hset : set.fragment.Balanced) : (Cond.member x positive set).fragment.Balanced := by
  have hkeyword : Tail (if positive then " IN (" else " NOT IN (") := by
    cases positive <;> decide
  have hne : (if positive then " IN (" else " NOT IN (") ≠ "" := by cases positive <;> decide
  exact ((Expr.balanced h).append_text_append hkeyword hne hset).append_text (by decide)

theorem linked_balanced {l : Link} (h : l.Clean) (positive : Bool) {set : Values} (hset : set.fragment.Balanced) :
    (Cond.linked positive l set).fragment.Balanced := by
  have hnot : Clean (if positive then "" else "NOT ") := by cases positive <;> decide
  have htable := clean_quote h.table
  have halias := clean_quote h.tableAlias
  have hcolumn1 := clean_qualified h.tableAlias h.column1
  have hcolumn2 := clean_qualified h.tableAlias h.column2
  have howner : Clean (qualified l.owner "id") := clean_qualified h.owner (by decide)
  refine hset.enclose ?_ (by decide)
  simp +decide only [clean_append, hnot, htable, halias, hcolumn1, hcolumn2, howner]

theorem group_balanced {c : Cond} (h : c.fragment.Balanced) : (Cond.group c).fragment.Balanced :=
  h.enclose (by decide) (by decide)

theorem join_balanced {f g : Fragment} (hf : f.Balanced) (hg : g.Balanced) {keyword : String} (h : Clean keyword) :
    (Fragment.join keyword f g).Balanced := by
  have hne : " " ++ keyword ++ " " ≠ "" := by simp
  exact ((hf.text_append (by decide)).append_text_append (Tail.spaced h) hne hg).append_text (by decide)

theorem and_balanced {a b : Cond} (ha : a.fragment.Balanced) (hb : b.fragment.Balanced) :
    (Cond.and a b).fragment.Balanced :=
  join_balanced ha hb (by decide)

theorem or_balanced {a b : Cond} (ha : a.fragment.Balanced) (hb : b.fragment.Balanced) :
    (Cond.or a b).fragment.Balanced :=
  join_balanced ha hb (by decide)

theorem not_balanced {c : Cond} (h : c.fragment.Balanced) : (Cond.not c).fragment.Balanced :=
  h.enclose (by decide) (by decide)

theorem conj_balanced {a b : Cond} (ha : a.fragment.Balanced) (hb : b.fragment.Balanced) :
    (Cond.conj a b).fragment.Balanced :=
  ha.append_text_append (by decide) (by decide) hb

/-! ### Subqueries -/

theorem rows_balanced {what : Selected} {tables : Tables} {c : Cond} {w : Window} (hwhat : Clean what.sql)
    (htables : tables.Clean) (hc : c.fragment.Balanced) (hw : w.Clean) :
    (Select.rows what tables c w).fragment.Balanced := by
  have hfragment : (Select.rows what tables c w).fragment =
      .text ("SELECT " ++ what.sql ++ " FROM " ++ tables.text ++ " WHERE ") ++ c.fragment ++ .text w.text := rfl
  have htext := htables.text
  rw [hfragment]
  refine hc.enclose ?_ hw.text
  simp +decide only [clean_append, hwhat, htext]

theorem references_balanced {table column : String} (ht : Clean table) (hc : Clean column) :
    (Select.references table column).fragment.Balanced := by
  have hfragment : (Select.references table column).fragment = .text
      ("SELECT " ++ quote column ++ " FROM " ++ quote table ++ " WHERE " ++ quote column ++ " IS NOT NULL") := rfl
  have htable := clean_quote ht
  have hcolumn := clean_quote hc
  rw [hfragment]
  refine balanced_text ?_
  simp +decide only [clean_append, htable, hcolumn]

theorem owners_balanced {table column : String} (ht : Clean table) (hc : Clean column) {ids : Values}
    (h : ids.fragment.Balanced) : (Select.owners table column ids).fragment.Balanced := by
  have hfragment : (Select.owners table column ids).fragment =
      .text ("SELECT " ++ quote column ++ " FROM " ++ quote table ++ " WHERE " ++ quote "id" ++ " IN (") ++
        ids.fragment ++ .text (") AND " ++ quote column ++ " IS NOT NULL") := rfl
  have htable := clean_quote ht
  have hcolumn := clean_quote hc
  rw [hfragment]
  refine h.enclose ?_ ?_
  · simp +decide only [clean_append, htable, hcolumn]
  · rw [String.append_assoc]
    exact Tail.append (by decide) (by decide) (clean_append.mpr ⟨hcolumn, by decide⟩)

theorem attached_balanced {table : String} (h : Clean table) (model field : String) :
    (Select.attached table model field).fragment.Balanced := by
  have hfragment : (Select.attached table model field).fragment =
      .text ("SELECT res_id FROM " ++ quote table ++ " WHERE res_model = ") ++ .param (.text model) ++
        .text " AND res_field = " ++ .param (.text field) ++ .text " AND res_id IS NOT NULL" := by
    have hmarks : " WHERE res_model = %s AND res_field = %s AND res_id IS NOT NULL" =
        " WHERE res_model = " ++ "%s" ++ " AND res_field = " ++ "%s" ++ " AND res_id IS NOT NULL" := rfl
    have hleft : (Select.attached table model field).fragment =
        ⟨"SELECT res_id FROM " ++ quote table ++ " WHERE res_model = %s AND res_field = %s AND res_id IS NOT NULL",
          [.text model, .text field]⟩ := rfl
    rw [hleft, Fragment.ext_iff, hmarks]
    simp only [sql_append, sql_text, params_append, params_text, Fragment.param, String.append_assoc]
    exact ⟨trivial, rfl⟩
  have htable := clean_quote h
  rw [hfragment]
  refine Balanced.append_text (Balanced.append_text_append ?_ (by decide) (by decide) (balanced_param _))
    (by decide)
  exact (balanced_param _).text_append (clean_append.mpr ⟨clean_append.mpr ⟨by decide, htable⟩, by decide⟩)

/-! ### Queries -/

/-- The conditions of the query have as many placeholders as values, and no other part of it holds a `%`. -/
structure Query.Ready (q : Query) : Prop where
  table : Clean q.table
  tableAlias : Clean q.tableAlias
  joins : ∀ j ∈ q.joins, j.Clean
  window : q.window.Clean
  condition : q.condition.fragment.Balanced

namespace Query.Ready
variable {q : Query}

theorem ofTable {table : String} (h : Clean table) : (Query.ofTable table).Ready where
  table := h
  tableAlias := h
  joins := nofun
  window := nofun
  condition := by
    exact literal_balanced true

theorem addJoin (h : q.Ready) {j : Join} (hj : j.Clean) : (q.addJoin j).Ready := by
  unfold Query.addJoin
  split
  · exact h
  · refine ⟨h.table, h.tableAlias, fun j' hj' => ?_, h.window, h.condition⟩
    rcases List.mem_append.mp hj' with hj' | hj'
    · exact h.joins j' hj'
    · rw [List.mem_singleton.mp hj']
      exact hj

theorem addCondition (h : q.Ready) {c : Cond} (hc : c.fragment.Balanced) : (q.addCondition c).Ready := by
  refine ⟨h.table, h.tableAlias, h.joins, h.window, ?_⟩
  have hcondition := h.condition
  unfold Query.condition at hcondition ⊢
  unfold Query.addCondition
  cases hconditions : q.conditions with
  | nil => exact hc
  | cons first rest =>
    rw [hconditions] at hcondition
    simp only [List.cons_append, List.foldl_append, List.foldl_cons, List.foldl_nil]
    exact conj_balanced hcondition hc

theorem tables (h : q.Ready) : q.tables.Clean := ⟨h.table, h.tableAlias, h.joins⟩

theorem idColumn (h : q.Ready) : Clean q.idColumn.text := by
  have hid : Clean "id" := by decide
  exact clean_qualified h.tableAlias hid

theorem select (h : q.Ready) : (q.select []).fragment.Balanced := rows_balanced h.idColumn h.tables h.condition h.window

theorem subselect (h : q.Ready) {what : Selected} (hwhat : Clean what.sql) : (q.subselect what).fragment.Balanced := by
  refine rows_balanced hwhat h.tables h.condition ?_
  split
  · exact h.window
  · exact nofun

theorem ids (h : q.Ready) : q.ids.fragment.Balanced := h.subselect h.idColumn

end Query.Ready
end RecordFilter.Sql
