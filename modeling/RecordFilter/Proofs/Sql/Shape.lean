import Mathlib.Data.List.Forall2
import RecordFilter.Proofs.Sql.Fragments

/-! The shape of SQL: its text and how many values it has. Values stand in no text, so conditions, subqueries
    and queries with parts of one shape have one shape. -/

namespace RecordFilter.Sql

/-- Two fragments with the same text and equally many values. -/
structure SameShape (a b : Fragment) : Prop where
  sql : a.sql = b.sql
  params : a.params.length = b.params.length

namespace SameShape
variable {a a' b b' : Fragment}

theorem refl (a : Fragment) : SameShape a a := ⟨rfl, rfl⟩

theorem symm (h : SameShape a a') : SameShape a' a := ⟨h.sql.symm, h.params.symm⟩

theorem append (ha : SameShape a a') (hb : SameShape b b') : SameShape (a ++ b) (a' ++ b') := by
  refine ⟨?_, ?_⟩
  · rw [Fragment.sql_append, Fragment.sql_append, ha.sql, hb.sql]
  · rw [Fragment.params_append, Fragment.params_append, List.length_append, List.length_append, ha.params, hb.params]

theorem param (p p' : Param) : SameShape (.param p) (.param p') := ⟨rfl, rfl⟩

theorem join (ha : SameShape a a') (hb : SameShape b b') (keyword : String) :
    SameShape (.join keyword a b) (.join keyword a' b') :=
  ((((refl _).append ha).append (refl _)).append hb).append (refl _)

end SameShape

/-- Two conditions of one shape. -/
abbrev CondAlike (c c' : Cond) : Prop := SameShape c.fragment c'.fragment

namespace CondAlike
variable {a a' b b' : Cond} {set set' : Values}

theorem refl (c : Cond) : CondAlike c c := SameShape.refl _

theorem and (ha : CondAlike a a') (hb : CondAlike b b') : CondAlike (.and a b) (.and a' b') := SameShape.join ha hb _

theorem or (ha : CondAlike a a') (hb : CondAlike b b') : CondAlike (.or a b) (.or a' b') := SameShape.join ha hb _

theorem not (ha : CondAlike a a') : CondAlike (.not a) (.not a') := ((SameShape.refl _).append ha).append (.refl _)

theorem conj (ha : CondAlike a a') (hb : CondAlike b b') : CondAlike (.conj a b) (.conj a' b') :=
  (SameShape.append ha (.refl _)).append hb

theorem group (ha : CondAlike a a') : CondAlike (.group a) (.group a') := ((SameShape.refl _).append ha).append (.refl _)

theorem compare (x : Expr) (op : Operator) (p p' : Param) (unaccent : Bool) :
    CondAlike (.compare x op p unaccent) (.compare x op p' unaccent) := by
  have hparam : SameShape (unaccented unaccent (.param p)) (unaccented unaccent (.param p')) := by
    unfold unaccented
    split
    · exact ((SameShape.refl _).append (.param p p')).append (.refl _)
    · exact .param p p'
  exact ((SameShape.refl _).append (.refl _)).append hparam

theorem member (x : Expr) (positive : Bool) (h : SameShape set.fragment set'.fragment) :
    CondAlike (.member x positive set) (.member x positive set') :=
  (((SameShape.refl _).append (.refl _)).append h).append (.refl _)

theorem linked (positive : Bool) (link : Link) (h : SameShape set.fragment set'.fragment) :
    CondAlike (.linked positive link set) (.linked positive link set') :=
  ((SameShape.refl _).append h).append (.refl _)

end CondAlike

/-! ### Sets and subqueries -/

theorem params_sameShape {ps ps' : List Param} (h : ps.length = ps'.length) :
    SameShape (Values.params ps).fragment (Values.params ps').fragment := by
  refine ⟨?_, h⟩
  show placeholders ps.length = placeholders ps'.length
  rw [h]

theorem select_sameShape {s s' : Select} (h : SameShape s.fragment s'.fragment) :
    SameShape (Values.select s).fragment (Values.select s').fragment := by
  rw [Values.fragment, Values.fragment]
  exact h

theorem rows_sameShape (what : Selected) (tables : Tables) {c c' : Cond} (h : CondAlike c c') (window : Window) :
    SameShape (Select.rows what tables c window).fragment (Select.rows what tables c' window).fragment := by
  have hfragment : ∀ c, (Select.rows what tables c window).fragment =
      .text ("SELECT " ++ what.sql ++ " FROM " ++ tables.text ++ " WHERE ") ++ c.fragment ++ .text window.text :=
    fun _ => rfl
  rw [hfragment, hfragment]
  exact ((SameShape.refl _).append h).append (.refl _)

theorem owners_sameShape (table column : String) {ids ids' : Values} (h : SameShape ids.fragment ids'.fragment) :
    SameShape (Select.owners table column ids).fragment (Select.owners table column ids').fragment := by
  have hfragment : ∀ ids, (Select.owners table column ids).fragment =
      .text ("SELECT " ++ quote column ++ " FROM " ++ quote table ++ " WHERE " ++ quote "id" ++ " IN (") ++
        ids.fragment ++ .text (") AND " ++ quote column ++ " IS NOT NULL") := fun _ => rfl
  rw [hfragment, hfragment]
  exact ((SameShape.refl _).append h).append (.refl _)

/-! ### Queries -/

/-- Two queries that differ at most in the values of their conditions. -/
structure QueryAlike (q q' : Query) : Prop where
  table : q.table = q'.table
  tableAlias : q.tableAlias = q'.tableAlias
  joins : q.joins = q'.joins
  conditions : List.Forall₂ CondAlike q.conditions q'.conditions
  window : q.window = q'.window

namespace QueryAlike
variable {q q' : Query}

theorem refl (q : Query) : QueryAlike q q := ⟨rfl, rfl, rfl, List.forall₂_same.mpr fun c _ => .refl c, rfl⟩

theorem addJoin (h : QueryAlike q q') (j : Join) : QueryAlike (q.addJoin j) (q'.addJoin j) := by
  have halias : q'.hasAlias j.tableAlias = q.hasAlias j.tableAlias := by rw [Query.hasAlias, Query.hasAlias, h.joins]
  unfold Query.addJoin
  rw [halias]
  split
  · exact h
  · exact ⟨h.table, h.tableAlias, by rw [h.joins], h.conditions, h.window⟩

theorem addCondition (h : QueryAlike q q') {c c' : Cond} (hc : CondAlike c c') :
    QueryAlike (q.addCondition c) (q'.addCondition c') :=
  ⟨h.table, h.tableAlias, h.joins, List.rel_append h.conditions (.cons hc .nil), h.window⟩

theorem condition (h : QueryAlike q q') : CondAlike q.condition q'.condition := by
  have fold : ∀ {cs cs' : List Cond} {c c' : Cond}, CondAlike c c' → List.Forall₂ CondAlike cs cs' →
      CondAlike (cs.foldl .conj c) (cs'.foldl .conj c') := by
    intro cs cs' c c' hc hcs
    induction hcs generalizing c c' with
    | nil => exact hc
    | cons hd _ ih => exact ih (hc.conj hd)
  have hconditions := h.conditions
  unfold Query.condition
  generalize q.conditions = cs at hconditions
  generalize q'.conditions = cs' at hconditions
  cases hconditions with
  | nil => exact .refl _
  | cons hc hcs => exact fold hc hcs

theorem subselect (h : QueryAlike q q') (what : Selected) :
    SameShape (q.subselect what).fragment (q'.subselect what).fragment := by
  have htables : q.tables = q'.tables := by rw [Query.tables, Query.tables, h.table, h.tableAlias, h.joins]
  unfold Query.subselect
  rw [htables, h.window]
  exact rows_sameShape what _ h.condition _

theorem idColumn (h : QueryAlike q q') : q.idColumn = q'.idColumn := by rw [Query.idColumn, Query.idColumn, h.tableAlias]

theorem ids (h : QueryAlike q q') : SameShape q.ids.fragment q'.ids.fragment := by
  unfold Query.ids
  rw [h.idColumn]
  exact h.subselect _

end QueryAlike
end RecordFilter.Sql
