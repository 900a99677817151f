import RecordFilter.Proofs.Sql.Fragments
import RecordFilter.Sql.Query

/-! The words of a SQL text. A condition whose comparisons are those of SQL is written with a fixed set of words, quoted
    names and these comparisons, whatever the names in it are: a name never ends before its closing quote. -/

namespace RecordFilter.Sql

/-! ### Texts -/

/-- The comparisons of SQL. -/
def comparisons : List String :=
  ["=", "!=", "<", "<=", ">", ">=", "LIKE", "NOT LIKE", "ILIKE", "NOT ILIKE", "IN", "NOT IN", "IS NULL", "IS NOT NULL"]

/-- The words and marks of SQL that compare nothing, with the names of the columns of attachments. -/
def words : List String :=
  [" ", "(", ")", ".", ",", "%s", "1", "TRUE", "FALSE", "AND", "OR", "NOT", "EXISTS", "SELECT", "FROM", "WHERE", "AS",
    "LEFT JOIN", "ON", "COALESCE", "unaccent", "::text", "->>", "'en_US'", "res_id", "res_model", "res_field"]

/-- The text is made of words, quoted names and comparisons. Nothing is said of the keyword by which a hierarchy operator
    compares a translated value. -/
inductive Written : String → Prop
  | nothing : Written ""
  | word {w rest} : w ∈ words → Written rest → Written (w ++ rest)
  | name (n) {rest} : Written rest → Written (quote n ++ rest)
  | comparison {k rest} : k ∈ comparisons → Written rest → Written (" " ++ k ++ rest)
  | translated {op : Operator} {closing rest} : op.isHierarchy → closing = "" ∨ closing = ")" → Written rest →
      Written ("->>'en_US'" ++ closing ++ " " ++ op.keyword ++ rest)

theorem Written.append {a b : String} (ha : Written a) (hb : Written b) : Written (a ++ b) := by
  induction ha with
  | nothing => rwa [String.empty_append]
  | word hw _ ih =>
    rw [String.append_assoc]
    exact .word hw ih
  | name n _ ih =>
    rw [String.append_assoc]
    exact .name n ih
  | comparison hk _ ih =>
    rw [String.append_assoc]
    exact .comparison hk ih
  | translated hop hclosing _ ih =>
    rw [String.append_assoc]
    exact .translated hop hclosing ih

/-- A fixed text, cut into words and comparisons with the blank before them. -/
theorem written_text {s : String} (parts : List String) (hs : String.join parts = s)
    (h : ∀ part ∈ parts, part ∈ words ∨ part ∈ comparisons.map (" " ++ ·)) : Written s := by
  subst hs
  induction parts with
  | nil => exact .nothing
  | cons part parts ih =>
    have hrest := ih fun part hpart => h part (List.mem_cons_of_mem _ hpart)
    rw [String.join_cons]
    rcases h part List.mem_cons_self with hw | hk
    · exact .word hw hrest
    · obtain ⟨k, hmem, rfl⟩ := List.mem_map.mp hk
      exact .comparison hmem hrest

theorem written_quote (n : String) : Written (quote n) := String.append_empty (s := quote n) ▸ .name n .nothing

theorem written_open : Written "(" := written_text ["("] rfl (by decide)

theorem written_close : Written ")" := written_text [")"] rfl (by decide)

theorem written_mark : Written "%s" := written_text ["%s"] rfl (by decide)

theorem written_select : Written "SELECT " := written_text ["SELECT", " "] (by decide) (by decide)

theorem written_from : Written " FROM " := written_text [" ", "FROM", " "] (by decide) (by decide)

theorem written_where : Written " WHERE " := written_text [" ", "WHERE", " "] (by decide) (by decide)

theorem written_as : Written " AS " := written_text [" ", "AS", " "] (by decide) (by decide)

theorem written_and : Written " AND " := written_text [" ", "AND", " "] (by decide) (by decide)

theorem written_equals : Written " = " := written_text [" =", " "] (by decide) (by decide)

theorem written_in : Written " IN (" := written_text [" IN", " ", "("] (by decide) (by decide)

theorem written_notNull : Written " IS NOT NULL" := written_text [" IS NOT NULL"] (by decide) (by decide)

theorem written_source : Written "->>'en_US'" := written_text ["->>", "'en_US'"] (by decide) (by decide)

theorem written_coalesce : Written "COALESCE(" := written_text ["COALESCE", "("] (by decide) (by decide)

theorem written_language : Written "->>%s, " := written_text ["->>", "%s", ",", " "] (by decide) (by decide)

theorem written_intercalate {sep : String} (hsep : Written sep) {ss : List String} (h : ∀ s ∈ ss, Written s) :
    Written (sep.intercalate ss) := by
  induction ss with
  | nil =>
    rw [String.intercalate_nil]
    exact .nothing
  | cons s rest ih =>
    have hs := h s List.mem_cons_self
    have hrest := ih fun s' hs' => h s' (List.mem_cons_of_mem _ hs')
    cases rest with
    | nil => rwa [String.intercalate_singleton]
    | cons s' rest =>
      rw [String.intercalate_cons_cons]
      exact (hs.append hsep).append hrest

/-! ### Names and expressions -/

theorem written_qualified (tableAlias column : String) : Written (qualified tableAlias column) :=
  ((written_quote tableAlias).append (written_text ["."] rfl (by decide))).append (written_quote column)

theorem written_aliased (table tableAlias : String) : Written (aliased table tableAlias) := by
  unfold aliased
  split
  · exact written_quote table
  · exact ((written_quote table).append written_as).append (written_quote tableAlias)

theorem Column.written (c : Column) : Written c.text := written_qualified _ _

theorem Join.written (j : Join) : Written j.text := by
  have front : Written "LEFT JOIN " := written_text ["LEFT JOIN", " "] (by decide) (by decide)
  have on : Written " ON (" := written_text [" ", "ON", " ", "("] (by decide) (by decide)
  have tables := (front.append (written_aliased j.targetTable j.tableAlias)).append on
  have source := (tables.append (written_qualified j.sourceAlias j.sourceColumn)).append written_equals
  exact (source.append (written_qualified j.tableAlias j.targetColumn)).append written_close

theorem Tables.written (t : Tables) : Written t.text := by
  refine written_intercalate (written_text [" "] rfl (by decide)) fun s hs => ?_
  rcases List.mem_cons.mp hs with rfl | hs
  · exact written_aliased _ _
  · obtain ⟨j, -, rfl⟩ := List.mem_map.mp hs
    exact j.written

/-- Whether the expression is the value of a translated column. -/
def Expr.isTranslated : Expr → Bool
  | .translated _ _ => true
  | _ => false

theorem Expr.written (x : Expr) : Written x.fragment.sql := by
  cases x with
  | column c => exact c.written
  | cast c => exact c.written.append (written_text ["::text"] rfl (by decide))
  | translated c lang =>
    simp only [Expr.fragment]
    split
    · exact c.written.append written_source
    · have source : Written "->>'en_US')" := written_text ["->>", "'en_US'", ")"] (by decide) (by decide)
      exact (((written_coalesce.append c.written).append written_language).append c.written).append source

theorem unaccented_written {f : Fragment} (h : Written f.sql) (on : Bool) : Written (unaccented on f).sql := by
  cases on
  · exact h
  · exact ((written_text ["unaccent", "("] (by decide) (by decide)).append h).append written_close

/-- A hierarchy operator behind a translated value. -/
theorem translated_written {x : Expr} (hx : x.isTranslated) {op : Operator} (hop : op.isHierarchy) :
    Written (x.fragment.sql ++ (" " ++ op.keyword ++ " ")) := by
  have blank : Written " " := written_text [" "] rfl (by decide)
  cases x with
  | column c => cases hx
  | cast c => cases hx
  | translated c lang =>
    simp only [Expr.fragment]
    split
    · have h := c.written.append (.translated hop (.inl rfl) blank)
      have hempty : "->>'en_US'" ++ "" = "->>'en_US'" := by decide
      simpa only [Fragment.text, String.append_assoc, hempty, String.empty_append] using h
    · have front := (written_coalesce.append c.written).append written_language
      have h := front.append (c.written.append (.translated hop (.inr rfl) blank))
      have hclosing : "->>'en_US')" = "->>'en_US'" ++ ")" := by decide
      simpa only [hclosing, String.append_assoc] using h

/-! ### Conditions -/

mutual

/-- The comparisons in the condition, those of its subqueries among them, are those of SQL, and no text is taken over. -/
def Cond.Standard : Cond → Prop
  | .literal _ | .isNull _ | .notNull _ | .isFalse _ | .notFalse _ => True
  | .text _ => False
  | .compare left op _ unaccent =>
    op.keyword ∈ comparisons ∨ (left.isTranslated ∧ op.isHierarchy ∧ unaccent = false)
  | .member _ _ set | .linked _ _ set => set.Standard
  | .group c | .not c => c.Standard
  | .and a b | .or a b | .conj a b => a.Standard ∧ b.Standard

/-- So are those in the set. -/
def Values.Standard : Values → Prop
  | .params _ => True
  | .select s => s.Standard

/-- So are those in the subquery, which gives all its rows in no order. -/
def Select.Standard : Select → Prop
  | .text _ => False
  | .rows what _ condition window => (∃ c, what = .column c) ∧ condition.Standard ∧ window = {}
  | .references _ _ | .attached _ _ _ => True
  | .owners _ _ ids => ids.Standard

end

theorem params_written (ps : List Param) : Written (Values.params ps).fragment.sql := by
  refine written_intercalate (written_text [","] rfl (by decide)) fun s hs => ?_
  rw [(List.mem_replicate.mp hs).2]
  exact written_mark

section
variable {set : Values}

theorem member_written (left : Expr) (positive : Bool) (h : Written set.fragment.sql) :
    Written (Cond.member left positive set).fragment.sql := by
  have keyword : Written (if positive then " IN (" else " NOT IN (") := by
    cases positive
    · exact written_text [" NOT IN", " ", "("] (by decide) (by decide)
    · exact written_in
  exact ((left.written.append keyword).append h).append written_close

theorem linked_written (positive : Bool) (link : Link) (h : Written set.fragment.sql) :
    Written (Cond.linked positive link set).fragment.sql := by
  have front : Written (if positive then "" else "NOT ") := by
    cases positive
    · exact written_text ["NOT", " "] (by decide) (by decide)
    · exact .nothing
  have keyword : Written "EXISTS (SELECT 1 FROM " :=
    written_text ["EXISTS", " ", "(", "SELECT", " ", "1", " ", "FROM", " "] (by decide) (by decide)
  have closing : Written "))" := written_text [")", ")"] (by decide) (by decide)
  have table := (((front.append keyword).append (written_quote link.table)).append written_as).append
    (written_quote link.tableAlias)
  have owner := ((table.append written_where).append (written_qualified link.tableAlias link.column1)).append
    written_equals
  have other := ((owner.append (written_qualified link.owner "id")).append written_and).append
    (written_qualified link.tableAlias link.column2)
  exact ((other.append written_in).append h).append closing

theorem owners_written (table column : String) (h : Written set.fragment.sql) :
    Written (Select.owners table column set).fragment.sql := by
  have front := (((written_select.append (written_quote column)).append written_from).append (written_quote table))
  have closing : Written ") AND " := written_text [")", " ", "AND", " "] (by decide) (by decide)
  have found := (((front.append written_where).append (written_quote "id")).append written_in).append h
  exact found.append ((closing.append (written_quote column)).append written_notNull)

end

mutual

theorem Cond.written : (c : Cond) → c.Standard → Written c.fragment.sql
  | .literal b, _ => by
    cases b
    · exact written_text ["FALSE"] (by decide) (by decide)
    · exact written_text ["TRUE"] (by decide) (by decide)
  | .text f, h => by cases h
  | .isNull c, _ => c.written.append (written_text [" IS NULL"] (by decide) (by decide))
  | .notNull c, _ => c.written.append written_notNull
  | .isFalse c, _ => c.written.append (written_text [" =", " ", "FALSE"] (by decide) (by decide))
  | .notFalse c, _ => c.written.append (written_text [" !=", " ", "FALSE"] (by decide) (by decide))
  | .compare left op right unaccent, h => by
    rcases h with hop | ⟨hleft, hop, rfl⟩
    · have keyword : Written (" " ++ op.keyword ++ " ") := .comparison hop (written_text [" "] rfl (by decide))
      exact ((unaccented_written left.written unaccent).append keyword).append
        (unaccented_written (f := .param right) written_mark unaccent)
    · exact (translated_written hleft hop).append written_mark
  | .member left positive (.params ps), _ => member_written left positive (params_written ps)
  | .member left positive (.select s), h => member_written left positive (s.written h)
  | .linked positive link (.params ps), _ => linked_written positive link (params_written ps)
  | .linked positive link (.select s), h => linked_written positive link (s.written h)
  | .group c, h => (written_open.append (c.written h)).append written_close
  | .and a b, h => (((written_open.append (a.written h.1)).append written_and).append (b.written h.2)).append written_close
  | .or a b, h => by
    have keyword : Written " OR " := written_text [" ", "OR", " "] (by decide) (by decide)
    exact (((written_open.append (a.written h.1)).append keyword).append (b.written h.2)).append written_close
  | .not c, h => by
    have front : Written "(NOT (" := written_text ["(", "NOT", " ", "("] (by decide) (by decide)
    exact (front.append (c.written h)).append (written_text [")", ")"] (by decide) (by decide))
  | .conj a b, h => ((a.written h.1).append written_and).append (b.written h.2)

theorem Select.written : (s : Select) → s.Standard → Written s.fragment.sql
  | .text f, h => by cases h
  | .rows what tables condition window, h => by
    obtain ⟨⟨c, rfl⟩, hcondition, rfl⟩ := h
    have front := (((written_select.append c.written).append written_from).append tables.written).append written_where
    exact (front.append (condition.written hcondition)).append .nothing
  | .references table column, _ => by
    have front := (((written_select.append (written_quote column)).append written_from).append (written_quote table))
    exact ((front.append written_where).append (written_quote column)).append written_notNull
  | .owners table column (.params ps), _ => owners_written table column (params_written ps)
  | .owners table column (.select s), h => owners_written table column (s.written h)
  | .attached table model field, _ => by
    have front : Written "SELECT res_id FROM " :=
      written_text ["SELECT", " ", "res_id", " ", "FROM", " "] (by decide) (by decide)
    have condition : Written " WHERE res_model = %s AND res_field = %s AND res_id IS NOT NULL" :=
      written_text [" ", "WHERE", " ", "res_model", " =", " ", "%s", " ", "AND", " ", "res_field", " =", " ", "%s", " ",
        "AND", " ", "res_id", " IS NOT NULL"] (by decide) (by decide)
    exact (front.append (written_quote table)).append condition

end

end RecordFilter.Sql
