import RecordFilter.Proofs.Compile.Hierarchies
import RecordFilter.Proofs.Sql.Patterns

/-! Hierarchies over stored paths. The domain of the descendants matches the records that have one of the roots above
    them or are one, and that of the ancestors lists the ids on the ways from the roots up, each once and in increasing
    order. LIKE reads a stored path with a percent sign behind it as what it is, the start of other paths. -/

namespace RecordFilter

namespace Sql

/-- How a database reads integers and texts: integers by value and patterns as LIKE has them, with nothing to be changed
    by a cast of a text to text or by leaving out accents where there are none. -/
structure Engine.ReadsTexts {V : Type} (e : Engine V) : Prop where
  equal_int : ∀ a b, Text.Fits a → Text.Fits b → e.equal (e.value (.int a)) (e.value (.int b)) = (a == b)
  asText : ∀ s, e.asText (e.value (.text s)) = e.value (.text s)
  unaccent : ∀ s : String, s.toList.all (·.toNat < 128) → e.unaccent (e.value (.text s)) = e.value (.text s)
  like : ∀ s p, e.like (e.value (.text s)) (e.value (.text p)) = likes p.toList s.toList

theorem toNat_of_isPathChar {c : Char} (h : isPathChar c = true) : c.toNat < 128 := by
  simp only [isPathChar, Bool.or_eq_true, decide_eq_true_eq] at h
  rcases h with (hdigit | rfl) | rfl
  · have hle : c ≤ '9' := of_decide_eq_true (Bool.and_eq_true_iff.mp hdigit).2
    exact Nat.lt_of_le_of_lt (UInt32.le_iff_toNat_le.mp hle) (by decide)
  · decide
  · decide

theorem isWildcard_of_isPathChar {c : Char} (h : isPathChar c = true) : isWildcard c = false := by
  refine isWildcard_eq_false_iff.mpr ⟨?_, ?_, ?_⟩ <;>
  · rintro rfl
    cases h

/-- No character of a stored path is a wildcard. -/
theorem Engine.ReadsTexts.readsPaths {V : Type} {e : Engine V} (h : e.ReadsTexts) : e.ReadsPaths where
  equal_int := h.equal_int
  asText := h.asText
  unaccent s hs := h.unaccent s (by
    rw [List.all_eq_true] at hs ⊢
    intro c hc
    rcases Bool.or_eq_true_iff.mp (hs c hc) with hpath | hany
    · exact decide_eq_true (toNat_of_isPathChar hpath)
    · rw [of_decide_eq_true hany]
      rfl)
  like s p hp := by
    have hplain : p.toList.all (!isWildcard ·) := by
      rw [List.all_eq_true] at hp ⊢
      intro c hc
      rw [isWildcard_of_isPathChar (hp c hc)]
      rfl
    rw [h.like, String.toList_append]
    exact likes_append_any hplain s.toList

end Sql

namespace Compile
open Sql

variable {V : Type} {db : Database V} {s : Setting} {m : Model} {p : Place} {F : Forest} {row : Node → Row V}
  {roots : List Int} {n : Node}

/-- A row makes a domain true, each leaf by its own condition. -/
def Satisfies (ctx : Context) (p : Place) (e : Engine V) (row : Row V) (d : Domain) : Prop :=
  d.value? (fun l => ((leafCondition ctx p l).truth e row).holds) = some true

/-- The rows of a table hold a forest: each has the id and the stored path of its record. -/
structure HoldsForest (e : Engine V) (p : Place) (F : Forest) (row : Node → Row V) : Prop where
  idField : ∃ f, p.model.field? "id" = some f
  pathField : ∃ f, p.model.field? "parent_path" = some f
  id : ∀ n ∈ F.nodes, row n (p.column "id") = some (e.value (.int n.id))
  path : ∀ n ∈ F.nodes, row n (p.column "parent_path") = some (e.value (.text n.path))

theorem satisfies_spell {ctx : Context} {e : Engine V} {r : Row V} (t : Term Leaf) :
    Satisfies ctx p e r t.spell ↔ (t.eval fun l => ((leafCondition ctx p l).truth e r).holds) = true := by
  rw [Satisfies, Domain.value?_of_terms? (Domain.terms?_spell t), Option.some.injEq]
  rfl

/-- The domain of the descendants matches a row where a root's path is the start of the path that is stored. -/
theorem satisfies_startsWith (hpath : ∃ f, p.model.field? "parent_path" = some f) {ctx : Context} {e : Engine V} {r : Row V}
    {paths : List String} :
    Satisfies ctx p e r (Term.disj ((paths.map startsWith).map .leaf)).spell ↔
      ∃ path ∈ paths, ((Cond.group (.compare (.cast (p.column "parent_path")) .eqLike (.text (path ++ "%"))
        ctx.unaccent)).truth e r).holds = true := by
  obtain ⟨f, hf⟩ := hpath
  rw [satisfies_spell, Term.eval_disj]
  simp only [List.any_map, List.any_eq_true]
  refine exists_congr fun path => and_congr_right fun _ => ?_
  show ((leafCondition ctx p (startsWith path)).truth e r).holds = true ↔ _
  rw [leafCondition, plainCondition_startsWith hf]

/-- That of the ancestors, where the id is in the list. -/
theorem satisfies_ids (hid : ∃ f, p.model.field? "id" = some f) {ctx : Context} {e : Engine V} {r : Row V} {ids : List Int} :
    Satisfies ctx p e r (.ofLeaf "id" .within (.value (.ofIds ids))) ↔ ((withinIds p ids).truth e r).holds = true := by
  obtain ⟨f, hf⟩ := hid
  refine (satisfies_spell (.leaf ⟨"id", .within, .value (.ofIds ids)⟩)).trans ?_
  have hc : plainCondition ⟨"id", .within, .value (.ofIds ids)⟩ p ctx = .ok (withinIds p ids) :=
    plainCondition_ids hf ids true ctx
  show ((leafCondition ctx p _).truth e r).holds = true ↔ _
  rw [leafCondition, hc]

/-- Over stored paths, a hierarchy gives a domain that matches, of the records of the forest, just those that are related
    to the roots: that have one above them or are one, or that are above one or are one. If no root is in the forest the
    domain matches no row at all. In the second case it lists the ids of these records in increasing order. -/
theorem stored_paths_exact (hdb : db.base.ReadsTexts) (hb : s.backend.KnowsPaths m F) (hstore : m.parentStore = true)
    {tableAlias : String} (hrows : HoldsForest db.base ⟨m, tableAlias⟩ F row) (dir : Direction) (roots : List Int)
    (tr : Trace) :
    ∃ d tr', (hierarchy s dir roots m none).Gives tr d tr' ∧
      (∀ n ∈ F.nodes, Satisfies s.context ⟨m, tableAlias⟩ db.engine (row n) d ↔
        F.Related (fun _ => True) dir roots n) ∧
      ((∀ k ∈ F.nodes, k.id ∉ roots) → ∀ r, ¬Satisfies s.context ⟨m, tableAlias⟩ db.engine r d) ∧
      (dir = .ancestors → ∃ ids, d = .ofLeaf "id" .within (.value (.ofIds ids)) ∧ ids.Pairwise (· < ·) ∧
        ∀ x, x ∈ ids ↔ ∃ n ∈ F.nodes, n.id = x ∧ F.Related (fun _ => True) .ancestors roots n) := by
  rw [hierarchy_of_parentStore hstore]
  cases dir with
  | descendants =>
    obtain ⟨_, tr', hgives, paths, rfl, hpaths⟩ := descendantsByPath_delivers hb roots tr
    refine ⟨_, tr', hgives, fun n hn => ?_, fun hnone r => ?_, nofun⟩
    · rw [satisfies_startsWith hrows.pathField]
      constructor
      · rintro ⟨path, hpath, hholds⟩
        obtain ⟨k, hk, hroot, rfl⟩ := (hpaths path).mp hpath
        have hprefix := (holds_startsWith hdb.readsPaths (hrows.path n hn)).mp hholds
        exact ⟨k, hk, hroot, (Forest.prefix_path_iff hn hk).mp hprefix⟩
      · rintro ⟨k, hk, hroot, hclimbs⟩
        have hprefix := (Forest.prefix_path_iff hn hk).mpr hclimbs
        exact ⟨k.path, (hpaths _).mpr ⟨k, hk, hroot, rfl⟩,
          (holds_startsWith hdb.readsPaths (hrows.path n hn)).mpr hprefix⟩
    · rw [satisfies_startsWith hrows.pathField]
      rintro ⟨path, hpath, -⟩
      obtain ⟨k, hk, hroot, -⟩ := (hpaths path).mp hpath
      exact hnone k hk hroot
  | ancestors =>
    obtain ⟨_, tr', hgives, ids, rfl, hids⟩ := ancestorsByPath_delivers hb roots tr
    -- An id on the way up from a root is that of a record above the root.
    have hmem : ∀ x, x ∈ ids.toList ↔ ∃ n ∈ F.nodes, n.id = x ∧ F.Related (fun _ => True) .ancestors roots n := by
      intro x
      rw [hids]
      constructor
      · rintro ⟨k, hk, hroot, hx⟩
        obtain ⟨n, hn, hid, hclimbs⟩ := F.climbs_of_mem_trail k hk x hx
        exact ⟨n, hn, hid, k, hk, hroot, hclimbs⟩
      · rintro ⟨n, hn, rfl, k, hk, hroot, hclimbs⟩
        exact ⟨k, hk, hroot, (Forest.mem_trail_iff hk hn).mpr hclimbs⟩
    have hfits : ∀ x ∈ ids.toList, Text.Fits x := by
      intro x hx
      obtain ⟨n, hn, rfl, -⟩ := (hmem x).mp hx
      exact F.fits n hn
    refine ⟨_, tr', hgives, fun n hn => ?_, fun hnone r => ?_, fun _ => ⟨ids.toList, rfl, ids.increasing, hmem⟩⟩
    · rw [satisfies_ids hrows.idField, holds_ids hdb.readsPaths (F.fits n hn) hfits (hrows.id n hn), hmem]
      constructor
      · rintro ⟨n', hn', hid, hrelated⟩
        exact F.apart n' hn' n hn hid ▸ hrelated
      · exact fun hrelated => ⟨n, hn, rfl, hrelated⟩
    · have hnil : ids.toList = [] := by
        refine List.eq_nil_iff_forall_not_mem.mpr fun x hx => ?_
        obtain ⟨k, hk, hroot, -⟩ := (hids x).mp hx
        exact hnone k hk hroot
      rw [satisfies_ids hrows.idField, hnil]
      exact nofun

/-! ### Folders by their paths -/

/-- Folders of which two have paths that start with the same digits. -/
def numberedFolders : Forest where
  nodes := [⟨1, none, [1], true⟩, ⟨2, some 1, [1, 2], true⟩, ⟨3, some 2, [1, 2, 3], true⟩, ⟨23, some 1, [1, 23], true⟩]
  fits := by decide
  apart := by decide
  root := by decide
  child := by
    intro n hn x hparent
    simp only [List.mem_cons, List.not_mem_nil, or_false] at hn
    rcases hn with rfl | rfl | rfl | rfl <;> cases hparent
    · exact ⟨⟨1, none, [1], true⟩, by decide, rfl, rfl⟩
    · exact ⟨⟨2, some 1, [1, 2], true⟩, by decide, rfl, rfl⟩
    · exact ⟨⟨1, none, [1], true⟩, by decide, rfl, rfl⟩

/-- A database with LIKE. -/
def likingDatabase : Database Datum where
  base := { Datum.engine with
    like := fun
      | .text s, .text pattern => likes pattern.toList s.toList
      | _, _ => false }
  records _ := numberedFolders.nodes.map forestRow

theorem readsTexts_liking : likingDatabase.base.ReadsTexts where
  equal_int a b _ _ := by
    show decide (Datum.number a = Datum.number b) = (a == b)
    simp [Bool.beq_eq_decide_eq]
  asText _ := rfl
  unaccent _ _ := rfl
  like _ _ := rfl

/-- Below the folder 2, whether or not there is a folder 99, is the folder 3 but not the folder 23. -/
theorem stored_paths_exact_folders :
    let m := (treeModel "folder").withParentStore
    let s := { folderCompiler with backend := forestBackend numberedFolders }.setting folderCompiler.context
    let row (n : Node) : Row Datum := (forestRow n).under "folder"
    likingDatabase.base.ReadsTexts ∧ s.backend.KnowsPaths m numberedFolders ∧ m.parentStore = true ∧
      HoldsForest likingDatabase.base ⟨m, "folder"⟩ numberedFolders row ∧
      ∃ d tr', (hierarchy s .descendants [2, 99] m none).Gives {} d tr' ∧
        ∀ n ∈ numberedFolders.nodes,
          Satisfies s.context ⟨m, "folder"⟩ likingDatabase.engine (row n) d ↔ n.id ∈ [2, 3] := by
  intro m s row
  have hb : s.backend.KnowsPaths m numberedFolders := (knows_forest numberedFolders m).paths rfl
  have hrows : HoldsForest likingDatabase.base ⟨m, "folder"⟩ numberedFolders row :=
    ⟨⟨_, rfl⟩, ⟨_, rfl⟩, fun _ _ => rfl, fun _ _ => rfl⟩
  obtain ⟨d, tr', hgives, hsatisfies, -, -⟩ :=
    stored_paths_exact readsTexts_liking hb rfl hrows .descendants [2, 99] {}
  refine ⟨readsTexts_liking, hb, rfl, hrows, d, tr', hgives, fun n hn => (hsatisfies n hn).trans ?_⟩
  have htrails : ∀ n ∈ numberedFolders.nodes,
      (∃ k ∈ numberedFolders.nodes, k.id ∈ [2, 99] ∧ k.id ∈ n.trail) ↔ n.id ∈ [2, 3] := by decide
  rw [← htrails n hn]
  exact exists_congr fun k => and_congr_right fun hk => and_congr_right fun _ => (Forest.mem_trail_iff hn hk).symm

end Compile
end RecordFilter
