import RecordFilter.Proofs.Compile.Aliases
import RecordFilter.Proofs.Compile.LeafConditions

/-! The columns that a condition reads, with those in its subqueries, and the columns that there are: the id of a record,
    the path of one whose model stores it, and the fields with a column of their own. A query offers those of its table
    and of the tables that it joins. The condition of a leaf reads the column of the leaf's field and no other. -/

namespace RecordFilter
open Sql

/-! ### The columns that there are -/

/-- The field has a column in the table of its model. -/
structure Field.HasColumn (f : Field) : Prop where
  store : f.store = true
  not_one2many : f.type ≠ .one2many
  not_many2many : f.type ≠ .many2many

/-- The columns in the table of a model. -/
inductive Model.HasColumn (m : Model) : String → Prop
  | id : HasColumn m "id"
  | path : m.parentStore = true → HasColumn m "parent_path"
  | field {name f} : m.field? name = some f → f.HasColumn → HasColumn m name

/-- The table is that of a model with the column. -/
def Registry.HasColumn (r : Registry) (table column : String) : Prop :=
  ∃ m, r.Has m ∧ m.table = table ∧ m.HasColumn column

/-- The table is the relation table of a many2many field, with the column. -/
def Registry.RelatesBy (r : Registry) (table column : String) : Prop :=
  ∃ m name f relation, r.Has m ∧ m.field? name = some f ∧ f.type = .many2many ∧ f.store = true ∧
    f.relation = some relation ∧ relation.table = table ∧ (column = relation.column1 ∨ column = relation.column2)

namespace Compile

/-- All chains from a model that are spelled as the alias lead to models of one table. -/
def SpeltOnce (r : Registry) (m : Model) (start tableAlias : String) : Prop :=
  ∀ ⦃links links' target target'⦄, Leads r m links target → Leads r m links' target' →
    aliasAlong start links = tableAlias → aliasAlong start links' = tableAlias → target.table = target'.table

end Compile

namespace Sql

/-- The table that an alias stands for among the tables of a query. -/
def Tables.tableOf? (t : Tables) (tableAlias : String) : Option String :=
  if tableAlias = t.tableAlias then some t.table
  else (t.joins.find? (·.tableAlias == tableAlias)).map (·.targetTable)

/-- The column is one of a model that a chain of relations leads to, under the alias that spells the chain. Where the alias
    spells no way to another table, it stands for the table of that model. -/
def Tables.Offers (r : Registry) (t : Tables) (c : Column) : Prop :=
  ∃ root links m, r.Has root ∧ root.table = t.table ∧ Compile.Leads r root links m ∧
    c.tableAlias = Compile.aliasAlong t.tableAlias links ∧ m.HasColumn c.name ∧
      (Compile.SpeltOnce r root t.tableAlias c.tableAlias → t.tableOf? c.tableAlias = some m.table)

/-- The two columns that a join compares are there. -/
def Tables.OffersJoin (r : Registry) (t : Tables) (j : Join) : Prop :=
  t.Offers r ⟨j.sourceAlias, j.sourceColumn⟩ ∧ t.Offers r ⟨j.tableAlias, j.targetColumn⟩

/-- An order, if there is one, is that of a column among the tables. -/
def Window.Reads (r : Registry) (t : Tables) (w : Window) : Prop :=
  ∀ order, w.order = some order → ∃ c, order = c.text ∧ t.Offers r c

mutual

/-- The condition reads columns with the property, its subqueries read columns that are there, and no text is taken over. -/
def Cond.Reads (r : Registry) (ok : Column → Prop) : Cond → Prop
  | .literal _ => True
  | .text _ => False
  | .isNull c | .notNull c | .isFalse c | .notFalse c => ok c
  | .compare left _ _ _ => ok left.source
  | .member left _ set => ok left.source ∧ set.Reads r
  | .linked _ link set =>
    ok ⟨link.owner, "id"⟩ ∧ r.RelatesBy link.table link.column1 ∧ r.RelatesBy link.table link.column2 ∧ set.Reads r
  | .group c | .not c => c.Reads r ok
  | .and a b | .or a b | .conj a b => a.Reads r ok ∧ b.Reads r ok

/-- The subquery of the set, if it is one, reads columns that are there. -/
def Values.Reads (r : Registry) : Values → Prop
  | .params _ => True
  | .select s => s.Reads r

/-- The subquery reads columns that are there: those that its tables offer, or those of the one table that it names. -/
def Select.Reads (r : Registry) : Select → Prop
  | .text _ => False
  | .rows what tables condition window =>
    (∃ c, what = .column c ∧ tables.Offers r c) ∧ (∀ j ∈ tables.joins, tables.OffersJoin r j) ∧
      condition.Reads r (tables.Offers r) ∧ window.Reads r tables
  | .references table column => r.HasColumn table column ∨ r.RelatesBy table column
  | .owners table column ids => r.HasColumn table column ∧ r.HasColumn table "id" ∧ ids.Reads r
  | .attached _ _ _ => True

end

theorem Cond.reads_mono {r : Registry} {ok ok' : Column → Prop} (h : ∀ c, ok c → ok' c) :
    (c : Cond) → c.Reads r ok → c.Reads r ok'
  | .literal _, _ => trivial
  | .text _, hc => hc
  | .isNull c, hc | .notNull c, hc | .isFalse c, hc | .notFalse c, hc => h c hc
  | .compare left _ _ _, hc => h left.source hc
  | .member left _ _, hc => ⟨h left.source hc.1, hc.2⟩
  | .linked _ _ _, hc => ⟨h _ hc.1, hc.2⟩
  | .group c, hc => c.reads_mono h hc
  | .not c, hc => c.reads_mono h hc
  | .and a b, hc => ⟨a.reads_mono h hc.1, b.reads_mono h hc.2⟩
  | .or a b, hc => ⟨a.reads_mono h hc.1, b.reads_mono h hc.2⟩
  | .conj a b, hc => ⟨a.reads_mono h hc.1, b.reads_mono h hc.2⟩

section
variable {r : Registry} {t : Tables} {m : Model} {column : String}

theorem Tables.offers_own (hm : r.Has m) (htable : t.table = m.table) (hcolumn : m.HasColumn column) :
    t.Offers r ⟨t.tableAlias, column⟩ :=
  ⟨m, [], m, hm, htable.symm, .here m, rfl, hcolumn, fun _ => by rw [Tables.tableOf?, if_pos rfl, htable]⟩

end
end Sql

/-- The subquery of the operand, if it is one, reads columns that are there. -/
def Operand.Reads (r : Registry) : Operand → Prop
  | value _ => True
  | subquery s => s.Reads r

/-- So do all subqueries in the domain. -/
def Domain.Reads (r : Registry) (d : Domain) : Prop := ∀ l ∈ d.leaves, l.right.Reads r

/-- Search hooks bring in no columns of their own: where they are asked about an operand that reads columns that are
    there, so do their answers. -/
def Registry.HooksRead (r : Registry) : Prop :=
  ∀ name hook, r.hook? name = some hook → ∀ m op operand d, operand.Reads r → hook m op operand = .ok d → d.Reads r

namespace Compile

/-! ### Conditions of leaves -/

section
variable {r : Registry} {ok : Column → Prop} {l : Leaf} {column : Column} {c : Cond} {p : Place} {ctx : Context}

theorem columnConditions_reads (hc : ok column) : ColumnConditions (·.Reads r ok) column where
  literal _ := trivial
  isNull := hc
  notNull := hc
  isFalse := hc
  notFalse := hc
  compare _ _ hleft _ _ := (congrArg ok hleft).mpr hc
  member _ _ hleft := ⟨(congrArg ok hleft).mpr hc, trivial⟩
  group h := h
  and ha hb := ⟨ha, hb⟩
  or ha hb := ⟨ha, hb⟩

/-- The condition of a leaf on a plain column reads that column. -/
theorem plainCondition_reads (hc : ok (p.column l.left)) (hl : l.right.Reads r) (h : plainCondition l p ctx = .ok c) :
    c.Reads r ok := by
  refine (columnConditions_reads hc).of_plainCondition (fun sub hsub _ => ?_) h
  rw [hsub] at hl
  exact ⟨hc, hl⟩

theorem translatedCondition_reads (hc : ok (p.column l.left)) (h : translatedCondition l p ctx = .ok c) :
    c.Reads r ok :=
  (columnConditions_reads hc).of_translatedCondition (fun _ => hc) h

end

/-! ### Kinds of leaves -/

/-- A leaf that is compiled to a comparison or a join is about a field with a column. -/
def FieldKind.HasColumn (m : Model) (l : Leaf) : FieldKind → Prop
  | .joinedPath _ _ => m.HasColumn l.path.1
  | .linesPath f _ _ => f.store = true ∧ f.autoJoin = true
  | .one2many f _ | .many2many f _ => f.store = true
  | .idHierarchy | .many2one _ | .datetime | .translatable | .plain => m.HasColumn l.left
  | .inherited .. | .path .. | .computed _ | .attachment _ => True

theorem classifyPath_hasColumn {r : Registry} {m : Model} {l : Leaf} {f : Field} {rest : String} {kind : FieldKind}
    (hf : m.field? l.path.1 = some f) (h : classifyPath r m l f rest = .ok kind) : kind.HasColumn m l := by
  unfold classifyPath at h
  split at h
  · cases h
    trivial
  · rename_i hstore
    have hstore : f.store = true := by simpa using hstore
    split at h
    · cases h
    · split at h
      · cases h
      · split at h
        · rename_i hauto
          split at h
          · rename_i htype
            cases h
            exact .field hf ⟨hstore, by rw [htype]; nofun, by rw [htype]; nofun⟩
          · cases h
            exact ⟨hstore, hauto⟩
          · cases h
        · cases h
          trivial

theorem classifyField_hasColumn {r : Registry} {m : Model} {l : Leaf} {f : Field} {kind : FieldKind}
    (hf : m.field? l.left = some f) (h : classifyField r f = .ok kind) : kind.HasColumn m l := by
  unfold classifyField at h
  split at h
  · cases h
    trivial
  · rename_i hstore
    have hstore : f.store = true := by simpa using hstore
    have column : f.type ≠ .one2many → f.type ≠ .many2many → m.HasColumn l.left := fun h₁ h₂ => .field hf ⟨hstore, h₁, h₂⟩
    split at h
    · obtain ⟨comodel, -, rfl⟩ := comodel_of_map h
      exact hstore
    · obtain ⟨comodel, -, rfl⟩ := comodel_of_map h
      exact hstore
    · rename_i htype
      obtain ⟨comodel, -, rfl⟩ := comodel_of_map h
      exact column (by rw [htype]; nofun) (by rw [htype]; nofun)
    · rename_i htype
      have hcolumn := column (by rw [htype]; nofun) (by rw [htype]; nofun)
      split at h
      · cases h
        trivial
      · split at h <;> cases h <;> exact hcolumn
    · rename_i htype
      cases h
      exact column (by rw [htype]; nofun) (by rw [htype]; nofun)
    · rename_i hone2many hmany2many _ _ _
      split at h <;> cases h <;> exact column hone2many hmany2many

theorem classify_hasColumn {r : Registry} {m : Model} {l : Leaf} {kind : FieldKind} (h : classify r m l = .ok kind) :
    kind.HasColumn m l := by
  unfold classify at h
  dsimp only at h
  split at h
  · cases h
  · cases h
    trivial
  · rename_i f hresolve
    have hf := Registry.resolve?_local hresolve
    split at h
    · exact classifyPath_hasColumn hf h
    · rename_i hrest
      have hpath : l.path.1 = l.left := Leaf.path_eq_of_none hrest
      split at h
      · rename_i hid
        have hid : l.path.1 = "id" := of_decide_eq_true (Bool.and_eq_true_iff.mp hid).1
        cases h
        show m.HasColumn l.left
        rw [← hpath, hid]
        exact .id
      · exact classifyField_hasColumn (hpath ▸ hf) h

end Compile
end RecordFilter
