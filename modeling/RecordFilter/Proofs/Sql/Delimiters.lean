import RecordFilter.Proofs.Sql.Fragments
import RecordFilter.Sql.Query

/-! Quotes and parentheses in SQL texts. A reader goes through a text from the left and knows how many parentheses are
    open and whether it is inside quotes. A text that it leaves as it came, with everything closed, can be put into any
    other one without a change to the grouping there; and a text in parentheses looks from outside like two
    parentheses. -/

namespace RecordFilter.Sql

/-! ### Reading -/

/-- What the reader of a text is inside of. -/
inductive Mode
  | code
  /-- A name in double quotes. -/
  | name
  /-- A string in single quotes. -/
  | literal
deriving DecidableEq, Repr

/-- Where the reader of a text stands: inside of how many parentheses, and inside of what. -/
structure Cursor where
  depth : Nat := 0
  mode : Mode := .code
deriving DecidableEq, Repr

namespace Cursor

/-- Reads a character. Quotes hide all other marks; a quote that is written twice inside quotes ends them and opens them
    again. A parenthesis that closes nothing cannot be read. -/
def next? (c : Cursor) (x : Char) : Option Cursor :=
  match c.mode with
  | .name => some { c with mode := if x = '"' then .code else .name }
  | .literal => some { c with mode := if x = '\x27' then .code else .literal }
  | .code =>
    if x = '"' then some { c with mode := .name }
    else if x = '\x27' then some { c with mode := .literal }
    else if x = '(' then some { c with depth := c.depth + 1 }
    else if x = ')' then if c.depth = 0 then none else some { c with depth := c.depth - 1 }
    else some c

/-- Reads some characters. -/
def read? : Cursor → List Char → Option Cursor
  | c, [] => some c
  | c, x :: rest =>
    match c.next? x with
    | some c => c.read? rest
    | none => none

/-- The characters outside all parentheses, the outermost parentheses among them. -/
def outside : Cursor → List Char → List Char
  | _, [] => []
  | c, x :: rest =>
    match c.next? x with
    | some c' => if c.depth = 0 ∨ c'.depth = 0 then x :: c'.outside rest else c'.outside rest
    | none => []

/-- The place inside of some more parentheses. -/
def deeper (c : Cursor) (n : Nat) : Cursor := { c with depth := c.depth + n }

variable {c c' c'' : Cursor} {x : Char} {as bs : List Char}

theorem next?_deeper (h : c.next? x = some c') (n : Nat) : (c.deeper n).next? x = some (c'.deeper n) := by
  obtain ⟨depth, mode⟩ := c
  unfold next? deeper at *
  cases mode with
  | name | literal =>
    cases h
    rfl
  | code =>
    dsimp only at h ⊢
    by_cases hname : x = '"'
    · rw [if_pos hname] at h ⊢
      cases h
      rfl
    rw [if_neg hname] at h ⊢
    by_cases hliteral : x = '\x27'
    · rw [if_pos hliteral] at h ⊢
      cases h
      rfl
    rw [if_neg hliteral] at h ⊢
    by_cases hopen : x = '('
    · rw [if_pos hopen] at h ⊢
      cases h
      rw [Nat.add_right_comm]
    rw [if_neg hopen] at h ⊢
    by_cases hclose : x = ')'
    · rw [if_pos hclose] at h ⊢
      split at h
      · cases h
      · cases h
        rw [if_neg (by omega), Nat.sub_add_comm (by omega)]
    · rw [if_neg hclose] at h ⊢
      cases h
      rfl

theorem read?_cons_eq_some (h : c.read? (x :: as) = some c') :
    ∃ c₁, c.next? x = some c₁ ∧ c₁.read? as = some c' := by
  rw [read?] at h
  cases hnext : c.next? x with
  | none =>
    rw [hnext] at h
    cases h
  | some c₁ =>
    rw [hnext] at h
    exact ⟨c₁, rfl, h⟩

/-- What can be read can be read inside of parentheses. -/
theorem read?_deeper (h : c.read? as = some c') (n : Nat) : (c.deeper n).read? as = some (c'.deeper n) := by
  induction as generalizing c with
  | nil =>
    cases h
    rfl
  | cons x rest ih =>
    obtain ⟨c₁, hnext, hrest⟩ := read?_cons_eq_some h
    rw [read?, next?_deeper hnext n]
    exact ih hrest

theorem read?_append (h : c.read? as = some c') : c.read? (as ++ bs) = c'.read? bs := by
  induction as generalizing c with
  | nil =>
    cases h
    rfl
  | cons x rest ih =>
    obtain ⟨c₁, hnext, hrest⟩ := read?_cons_eq_some h
    rw [List.cons_append, read?, hnext]
    exact ih hrest

theorem outside_append (h : c.read? as = some c') : c.outside (as ++ bs) = c.outside as ++ c'.outside bs := by
  induction as generalizing c with
  | nil =>
    cases h
    rfl
  | cons x rest ih =>
    obtain ⟨c₁, hnext, hrest⟩ := read?_cons_eq_some h
    rw [List.cons_append, outside, outside, hnext]
    dsimp only
    rw [ih hrest]
    split
    · rfl
    · rfl

/-- A text that can be read by itself shows nothing from inside of parentheses. -/
theorem outside_deeper (h : c.read? as = some c') (n : Nat) : (c.deeper (n + 1)).outside as = [] := by
  induction as generalizing c with
  | nil => rfl
  | cons x rest ih =>
    obtain ⟨c₁, hnext, hrest⟩ := read?_cons_eq_some h
    rw [outside, next?_deeper hnext]
    dsimp only
    rw [if_neg (by simp [deeper]), ih hrest]

end Cursor

/-! ### Texts -/

/-- The text leads from inside of `n` parentheses to inside of `m`, and from outside of quotes to outside of them. -/
def Spans (s : String) (n m : Nat) : Prop := Cursor.read? ⟨n, .code⟩ s.toList = some ⟨m, .code⟩

instance (s : String) (n m : Nat) : Decidable (Spans s n m) := inferInstanceAs (Decidable (_ = _))

/-- Every quote and every parenthesis that is opened in the text is closed in it, and no other one. -/
def Closed (s : String) : Prop := Spans s 0 0

instance (s : String) : Decidable (Closed s) := inferInstanceAs (Decidable (Spans s 0 0))

/-- What stands outside of all parentheses in the text. -/
def outline (s : String) : String := String.ofList (Cursor.outside {} s.toList)

variable {a b s : String} {n m k : Nat}

theorem Spans.append (ha : Spans a n m) (hb : Spans b m k) : Spans (a ++ b) n k := by
  unfold Spans at *
  rw [String.toList_append, Cursor.read?_append ha]
  exact hb

theorem Spans.deeper (h : Spans s n m) (k : Nat) : Spans s (n + k) (m + k) := Cursor.read?_deeper h k

theorem Closed.inside (h : Closed s) (n : Nat) : Spans s n n := by
  have := Spans.deeper h n
  rwa [Nat.zero_add] at this

theorem Closed.append (ha : Closed a) (hb : Closed b) : Closed (a ++ b) := Spans.append ha hb

/-- A text around another one that closes what it opens. -/
theorem Closed.enclosed (h : Closed s) (ha : Spans a 0 n) (hb : Spans b n 0) : Closed (a ++ s ++ b) :=
  (ha.append (h.inside n)).append hb

theorem closed_intercalate {sep : String} (hsep : Closed sep) {ss : List String} (h : ∀ s ∈ ss, Closed s) :
    Closed (sep.intercalate ss) := by
  induction ss with
  | nil =>
    rw [String.intercalate_nil]
    exact rfl
  | cons s rest ih =>
    have hs := h s List.mem_cons_self
    have hrest := ih fun s' hs' => h s' (List.mem_cons_of_mem _ hs')
    cases rest with
    | nil => rwa [String.intercalate_singleton]
    | cons s' rest =>
      rw [String.intercalate_cons_cons]
      exact (hs.append hsep).append hrest

theorem outline_append (h : Closed a) : outline (a ++ b) = outline a ++ outline b := by
  unfold outline
  rw [String.toList_append, Cursor.outside_append h, String.ofList_append]

theorem outline_intercalate {sep : String} (hsep : Closed sep) {ss : List String} (h : ∀ s ∈ ss, Closed s) :
    outline (sep.intercalate ss) = (outline sep).intercalate (ss.map outline) := by
  induction ss with
  | nil => rfl
  | cons s rest ih =>
    have hs := h s List.mem_cons_self
    have hrest := ih fun s' hs' => h s' (List.mem_cons_of_mem _ hs')
    cases rest with
    | nil => rw [String.intercalate_singleton, List.map_singleton, String.intercalate_singleton]
    | cons s' rest =>
      show _ = (outline sep).intercalate (outline s :: outline s' :: rest.map outline)
      rw [String.intercalate_cons_cons, String.intercalate_cons_cons, outline_append (hs.append hsep),
        outline_append hs, hrest]
      rfl

/-- The parenthesis that is opened first is the one that is closed last. -/
theorem outline_parenthesized (h : Closed s) : outline ("(" ++ s ++ ")") = "()" := by
  have hinner : Cursor.outside ⟨1, .code⟩ s.toList = [] := Cursor.outside_deeper h 0
  have hread : Cursor.read? ⟨1, .code⟩ s.toList = some ⟨1, .code⟩ := h.inside 1
  unfold outline
  rw [String.append_assoc, String.toList_append, String.toList_append]
  rw [Cursor.outside_append (show Cursor.read? {} "(".toList = some ⟨1, .code⟩ by decide),
    Cursor.outside_append hread, hinner]
  rfl

/-! ### Names -/

/-- Inside the quotes of a name, its own quotes open nothing. -/
theorem read?_escapeName (name : List Char) (n : Nat) :
    Cursor.read? ⟨n, .name⟩ (escapeName name) = some ⟨n, .name⟩ := by
  induction name with
  | nil => rfl
  | cons x rest ih =>
    rw [show escapeName (x :: rest) = (if x = '"' then ['"', '"'] else [x]) ++ escapeName rest from rfl]
    refine (Cursor.read?_append ?_).trans ih
    split
    · rfl
    · rename_i hx
      simp [Cursor.read?, Cursor.next?, hx]

theorem closed_quote (name : String) : Closed (quote name) := by
  show Cursor.read? {} (String.toList _) = _
  rw [quote, String.toList_ofList]
  rw [show '"' :: escapeName name.toList ++ ['"'] = ['"'] ++ escapeName name.toList ++ ['"'] from rfl]
  have hopened : Cursor.read? {} ['"'] = some ⟨0, .name⟩ := rfl
  rw [List.append_assoc, Cursor.read?_append hopened, Cursor.read?_append (read?_escapeName name.toList 0)]
  rfl

theorem closed_qualified (tableAlias column : String) : Closed (qualified tableAlias column) :=
  ((closed_quote tableAlias).append (by decide)).append (closed_quote column)

theorem closed_aliased (table tableAlias : String) : Closed (aliased table tableAlias) := by
  unfold aliased
  split
  · exact closed_quote table
  · exact ((closed_quote table).append (by decide)).append (closed_quote tableAlias)

theorem Column.closed (c : Column) : Closed c.text := closed_qualified _ _

theorem Join.closed (j : Join) : Closed j.text := by
  have hfront : Closed ("LEFT JOIN " ++ aliased j.targetTable j.tableAlias) := .append (by decide) (closed_aliased _ _)
  have hcondition : Closed (qualified j.sourceAlias j.sourceColumn ++ " = " ++ qualified j.tableAlias j.targetColumn) :=
    ((closed_qualified _ _).append (by decide)).append (closed_qualified _ _)
  have hon := hfront.append (hcondition.enclosed (a := " ON (") (b := ")") (n := 1) (by decide) (by decide))
  unfold Join.text
  simpa only [String.append_assoc] using hon

theorem Tables.closed (t : Tables) : Closed t.text := by
  refine closed_intercalate (by decide) fun s hs => ?_
  rcases List.mem_cons.mp hs with rfl | hs
  · exact closed_aliased _ _
  · obtain ⟨j, -, rfl⟩ := List.mem_map.mp hs
    exact j.closed

/-! ### Expressions and sets -/

theorem Expr.closed (x : Expr) : Closed x.fragment.sql := by
  cases x with
  | column c => exact c.closed
  | cast c => exact c.closed.append (by decide)
  | translated c lang =>
    simp only [Expr.fragment]
    split
    · exact c.closed.append (by decide)
    · have hvalues : Closed (c.text ++ "->>%s, " ++ c.text ++ "->>'en_US'") :=
        ((c.closed.append (by decide)).append c.closed).append (by decide)
      have hclosing : "->>'en_US')" = "->>'en_US'" ++ ")" := by decide
      have hall := hvalues.enclosed (a := "COALESCE(") (b := ")") (n := 1) (by decide) (by decide)
      simpa only [hclosing, String.append_assoc] using hall

theorem unaccented_closed {f : Fragment} (h : Closed f.sql) (on : Bool) : Closed (unaccented on f).sql := by
  cases on
  · exact h
  · exact h.enclosed (n := 1) (by decide) (by decide)

theorem params_closed (ps : List Param) : Closed (Values.params ps).fragment.sql := by
  refine closed_intercalate (by decide) fun s hs => ?_
  rw [(List.mem_replicate.mp hs).2]
  decide

/-! ### Conditions -/

/-- The text is a truth value, or parentheses around a closed text, with or without `EXISTS` before them. -/
inductive Delimited : String → Prop
  | true : Delimited "TRUE"
  | false : Delimited "FALSE"
  | parenthesized {inner} : Closed inner → Delimited ("(" ++ inner ++ ")")
  | rows {inner} : Closed inner → Delimited ("EXISTS (" ++ inner ++ ")")
  | noRows {inner} : Closed inner → Delimited ("NOT EXISTS (" ++ inner ++ ")")

/-- What delimited texts look like from outside. -/
def units : List String := ["TRUE", "FALSE", "()", "EXISTS ()", "NOT EXISTS ()"]

namespace Delimited

theorem closed (h : Delimited s) : Closed s := by
  cases h with
  | true | false => decide
  | parenthesized h | rows h | noRows h => exact h.enclosed (n := 1) (by decide) (by decide)

theorem outline_mem (h : Delimited s) : outline s ∈ units := by
  have hkeyword : ∀ {keyword inner : String}, Closed keyword → Closed inner →
      outline (keyword ++ "(" ++ inner ++ ")") = outline keyword ++ "()" := fun hkeyword hinner => by
    rw [String.append_assoc, String.append_assoc, outline_append hkeyword, ← String.append_assoc,
      outline_parenthesized hinner]
  cases h with
  | true | false => decide
  | parenthesized h =>
    rw [outline_parenthesized h]
    decide
  | rows h =>
    rw [show "EXISTS (" = "EXISTS " ++ "(" by decide, hkeyword (by decide) h]
    decide
  | noRows h =>
    rw [show "NOT EXISTS (" = "NOT EXISTS " ++ "(" by decide, hkeyword (by decide) h]
    decide

/-- Under `NOT` the text is still one unit. -/
theorem outline_negated (s : String) : outline ("NOT " ++ s) = "NOT " ++ outline s := outline_append (by decide)

end Delimited

section
variable {a b : Cond} {x : Expr} {set : Values}

theorem isNull_closed (c : Column) : Closed (Cond.isNull c).fragment.sql := c.closed.append (by decide)

theorem notNull_closed (c : Column) : Closed (Cond.notNull c).fragment.sql := c.closed.append (by decide)

theorem isFalse_closed (c : Column) : Closed (Cond.isFalse c).fragment.sql := c.closed.append (by decide)

theorem notFalse_closed (c : Column) : Closed (Cond.notFalse c).fragment.sql := c.closed.append (by decide)

theorem compare_closed (x : Expr) (op : Operator) (param : Param) (unaccent : Bool) :
    Closed (Cond.compare x op param unaccent).fragment.sql := by
  have hkeyword : Closed (" " ++ op.keyword ++ " ") := by cases op <;> decide
  have hmark : Closed "%s" := by decide
  exact ((unaccented_closed x.closed unaccent).append hkeyword).append (unaccented_closed hmark unaccent)

theorem member_closed (x : Expr) (positive : Bool) (hset : Closed set.fragment.sql) :
    Closed (Cond.member x positive set).fragment.sql := by
  have hkeyword : Spans (if positive then " IN (" else " NOT IN (") 0 1 := by cases positive <;> decide
  simp only [Cond.fragment]
  exact ((Spans.append x.closed hkeyword).append (hset.inside 1)).append (by decide)

theorem literal_delimited (b : Bool) : Delimited (Cond.literal b).fragment.sql := by
  cases b
  · exact .false
  · exact .true

theorem group_delimited (h : Closed a.fragment.sql) : Delimited (Cond.group a).fragment.sql := .parenthesized h

theorem join_delimited {keyword : String} (hkeyword : Closed (" " ++ keyword ++ " ")) {f g : Fragment}
    (hf : Closed f.sql) (hg : Closed g.sql) : Delimited (Fragment.join keyword f g).sql := by
  have hinner : Closed (f.sql ++ (" " ++ keyword ++ " ") ++ g.sql) := (hf.append hkeyword).append hg
  simp only [Fragment.join, Fragment.sql_append, Fragment.sql_text]
  simpa only [String.append_assoc] using Delimited.parenthesized hinner

theorem and_delimited (ha : Closed a.fragment.sql) (hb : Closed b.fragment.sql) :
    Delimited (Cond.and a b).fragment.sql := join_delimited (by decide) ha hb

theorem or_delimited (ha : Closed a.fragment.sql) (hb : Closed b.fragment.sql) :
    Delimited (Cond.or a b).fragment.sql := join_delimited (by decide) ha hb

theorem not_delimited (h : Closed a.fragment.sql) : Delimited (Cond.not a).fragment.sql := by
  have hinner : Closed ("NOT (" ++ a.fragment.sql ++ ")") := h.enclosed (n := 1) (by decide) (by decide)
  have hopening : "(NOT (" = "(" ++ "NOT (" := by decide
  have hclosing : "))" = ")" ++ ")" := by decide
  show Delimited ("(NOT (" ++ a.fragment.sql ++ "))")
  simpa only [hopening, hclosing, String.append_assoc] using Delimited.parenthesized hinner

theorem linked_delimited (positive : Bool) (link : Link) (hset : Closed set.fragment.sql) :
    Delimited (Cond.linked positive link set).fragment.sql := by
  have htable : Closed ("SELECT 1 FROM " ++ quote link.table ++ " AS " ++ quote link.tableAlias) :=
    ((Closed.append (by decide) (closed_quote _)).append (by decide)).append (closed_quote _)
  have howner : Closed (" WHERE " ++ qualified link.tableAlias link.column1 ++ " = " ++ qualified link.owner "id") :=
    ((Closed.append (by decide) (closed_qualified _ _)).append (by decide)).append (closed_qualified _ _)
  have hother : Closed (" AND " ++ qualified link.tableAlias link.column2 ++ (" IN (" ++ set.fragment.sql ++ ")")) :=
    (Closed.append (by decide) (closed_qualified _ _)).append (hset.enclosed (n := 1) (by decide) (by decide))
  have hinner := (htable.append howner).append hother
  have hopening : "EXISTS (SELECT 1 FROM " = "EXISTS (" ++ "SELECT 1 FROM " := by decide
  have hnot : "NOT " ++ "EXISTS (" = "NOT EXISTS (" := by decide
  have hclosing : "))" = ")" ++ ")" := by decide
  simp only [Cond.fragment, Fragment.sql_append, Fragment.sql_text, hopening, hclosing]
  cases positive with
  | true => simpa only [String.append_assoc, String.empty_append, if_true] using Delimited.rows hinner
  | false =>
    have hall := Delimited.noRows hinner
    rw [← hnot] at hall
    simpa only [String.append_assoc, Bool.false_eq_true, if_false] using hall

end

/-- Whether the condition is no bare comparison or conjunction, nor a text that is taken over. -/
def Cond.isUnit : Cond → Bool
  | .literal _ | .linked _ _ _ | .group _ | .and _ _ | .or _ _ | .not _ => true
  | .text _ | .isNull _ | .notNull _ | .isFalse _ | .notFalse _ | .compare _ _ _ _ | .member _ _ _ | .conj _ _ => false

/-! ### Subqueries -/

/-- The front of a subquery for the values of a column. -/
theorem selected_closed (table column : String) : Closed ("SELECT " ++ quote column ++ " FROM " ++ quote table) :=
  ((Closed.append (by decide) (closed_quote column)).append (by decide)).append (closed_quote table)

theorem references_closed (table column : String) : Closed (Select.references table column).fragment.sql := by
  show Closed ("SELECT " ++ quote column ++ " FROM " ++ quote table ++ " WHERE " ++ quote column ++ " IS NOT NULL")
  exact (((selected_closed table column).append (by decide)).append (closed_quote column)).append (by decide)

theorem owners_closed (table column : String) {ids : Values} (h : Closed ids.fragment.sql) :
    Closed (Select.owners table column ids).fragment.sql := by
  have hid := ((selected_closed table column).append (b := " WHERE ") (by decide)).append (closed_quote "id")
  have hopening := Spans.append hid (show Spans " IN (" 0 1 by decide)
  have hcolumn := Spans.append (show Spans ") AND " 1 0 by decide) (closed_quote column)
  have hclosing := hcolumn.append (show Spans " IS NOT NULL" 0 0 by decide)
  exact (hopening.append (h.inside 1)).append hclosing

theorem attached_closed (table model field : String) : Closed (Select.attached table model field).fragment.sql := by
  have hfront : Closed ("SELECT res_id FROM " ++ quote table) := .append (by decide) (closed_quote _)
  show Closed ("SELECT res_id FROM " ++ quote table ++
    " WHERE res_model = %s AND res_field = %s AND res_id IS NOT NULL")
  exact hfront.append (by decide)

theorem rows_closed (column : Column) (tables : Tables) {c : Cond} (h : Closed c.fragment.sql) :
    Closed (Select.rows (.column column) tables c {}).fragment.sql := by
  have htables := ((Closed.append (a := "SELECT ") (by decide) column.closed).append (b := " FROM ") (by decide)).append
    tables.closed
  exact ((htables.append (show Closed " WHERE " by decide)).append h).append (show Closed (Window.text {}) by decide)

/-! ### Conditions of a query -/

namespace Query
variable {q : Query}

/-- A query's conditions stand one after the other, with `AND` between them. -/
theorem sql_condition (h : q.conditions ≠ []) :
    q.condition.fragment.sql = " AND ".intercalate (q.conditions.map (·.fragment.sql)) := by
  have folded : ∀ (rest : List Cond) (c : Cond), (rest.foldl .conj c).fragment.sql =
      " AND ".intercalate (c.fragment.sql :: rest.map (·.fragment.sql)) := by
    intro rest
    induction rest with
    | nil =>
      intro c
      exact (String.intercalate_singleton ..).symm
    | cons c' rest ih =>
      intro c
      rw [List.foldl_cons, ih, List.map_cons, String.intercalate_cons_cons]
      show " AND ".intercalate ((c.fragment.sql ++ " AND " ++ c'.fragment.sql) :: rest.map (·.fragment.sql)) = _
      cases rest with
      | nil => simp only [List.map_nil, String.intercalate_singleton]
      | cons c'' rest => simp only [List.map_cons, String.intercalate_cons_cons, String.append_assoc]
  unfold condition
  split
  · exact absurd ‹_› h
  · rename_i c rest hcs
    rw [hcs]
    exact folded rest c

/-- From outside, the condition shows the units of the query's conditions, and no other connective than the `AND`
    between them. -/
theorem outline_condition (hne : q.conditions ≠ []) (h : ∀ c ∈ q.conditions, Delimited c.fragment.sql) :
    outline q.condition.fragment.sql = " AND ".intercalate (q.conditions.map fun c => outline c.fragment.sql) := by
  have hclosed : ∀ s ∈ q.conditions.map (·.fragment.sql), Closed s := by
    intro s hs
    obtain ⟨c, hc, rfl⟩ := List.mem_map.mp hs
    exact (h c hc).closed
  rw [sql_condition hne, outline_intercalate (by decide) hclosed, List.map_map]
  rfl

end Query

end RecordFilter.Sql
