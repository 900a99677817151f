import RecordFilter.Proofs.Compile.Complements

/-! Negations that a path through lines keeps. A pattern that is taken as it stands has no negated operator, so the
    condition of its leaf stands under `NOT`, and `NOT` is the complement only where the condition is known. The owners
    of lines that are searched apart are never null. Lines that are read in place give their inverse as it is: one
    matching line without an owner makes the condition unknown for every record that owns no matching line. -/

namespace RecordFilter.Compile
open Sql

section
variable {V : Type} {db : Database V} {row : Row V} {p : Place} {target : Model} {inverse : Field} {last : Cond}

/-- A line for which a condition is true. -/
def Matches (db : Database V) (target : Model) (last : Cond) (line : Record V) : Prop :=
  line ∈ db.records target.table ∧ (last.truth db.engine (line.under target.table)).holds = true

/-- The query of the lines for which a condition is true. -/
def matching (target : Model) (last : Cond) : Query := (Query.ofTable target.table).addCondition last

theorem mem_inverses {x : Option V} :
    x ∈ db.engine.rows ((matching target last).subselect (.column ⟨target.table, inverse.name⟩)) ↔
      ∃ line, Matches db target last line ∧ line inverse.name = x := by
  refine db.mem_rows_ofTable.trans ?_
  constructor
  · rintro ⟨line, hline, hlast, hx⟩
    exact ⟨line, ⟨hline, hlast⟩, hx⟩
  · rintro ⟨line, ⟨hline, hlast⟩, hx⟩
    exact ⟨line, hline, hlast, hx⟩

/-- Whether the id is among the inverses of the matching lines is not known where one of them is null and the id is not
    found. -/
theorem truth_inverses {id : V} (hid : row ⟨p.tableAlias, "id"⟩ = some id) :
    (idWithin p ((matching target last).subselect (.column ⟨target.table, inverse.name⟩))).truth db.engine row = .unknown ↔
      (∃ line, Matches db target last line ∧ line inverse.name = none) ∧
        ¬∃ line, Matches db target last line ∧ db.base.equals (row ⟨p.tableAlias, "id"⟩) (line inverse.name) = true := by
  have hmember : (idWithin p ((matching target last).subselect (.column ⟨target.table, inverse.name⟩))).truth db.engine row =
      db.engine.member (some id)
        (db.engine.rows ((matching target last).subselect (.column ⟨target.table, inverse.name⟩))) := by
    rw [← hid]
    rfl
  have hfound : (db.engine.member (some id)
      (db.engine.rows ((matching target last).subselect (.column ⟨target.table, inverse.name⟩)))).holds = false ↔
      ¬∃ line, Matches db target last line ∧ db.base.equals (row ⟨p.tableAlias, "id"⟩) (line inverse.name) = true := by
    rw [Bool.eq_false_iff, Ne, Engine.holds_member]
    refine not_congr ⟨?_, ?_⟩
    · rintro ⟨x, hx, heq⟩
      obtain ⟨line, hline, rfl⟩ := mem_inverses.mp hx
      exact ⟨line, hline, hid ▸ heq⟩
    · rintro ⟨line, hline, heq⟩
      exact ⟨_, mem_inverses.mpr ⟨line, hline, rfl⟩, hid ▸ heq⟩
  rw [hmember, Engine.member_eq_unknown, mem_inverses, hfound]

/-- Whether the id is among the owners of some lines is known. -/
theorem truth_owners (hid : row ⟨p.tableAlias, "id"⟩ ≠ none) (ids : Values) :
    (idWithin p (.owners target.table inverse.name ids)).truth db.engine row ≠ .unknown :=
  ((collects_owners target.table inverse.name ids).tells false db row hid).1

end

section
variable {c : Compiler} {target : Model} {rest : String} {op : Operator} {right : Operand} {last : Cond}

/-- The lines are queried with the condition of the leaf at the end of the path. -/
theorem Endpoint.query_yields (he : Endpoint c.registry c.context target ⟨rest, op, right⟩ last) (hr : c.registry.Valid)
    (hactive : c.context.activeTest = false) (hhas : c.registry.Has target) (fuel : Nat) :
    (c.queryIn (fuel + 2) c.context target.name (.ofLeaf rest op right)).Yields (matching target last) := by
  have hsettles : Settles (c.setting c.context) (c.queryIn (fuel + 1)) 1 ⟨rest, op, right⟩ ⟨target, target.table⟩ last :=
    settles_emit (reduce_of_classify he.op he.plain (by exact emitLeaf_yields he.condition))
  exact hsettles.queryIn (by omega) (hr.built.model_eq hhas) hactive

/-- Such a domain is not false by itself. -/
theorem Endpoint.find_yields (he : Endpoint c.registry c.context target ⟨rest, op, right⟩ last) (hr : c.registry.Valid)
    (hactive : c.context.activeTest = false) (hhas : c.registry.Has target) (hop : op ≠ .within) (fuel : Nat) :
    (findWith (c.queryIn (fuel + 2)) c.context target.name (.ofLeaf rest op right)).Yields
      (.rows (inIdOrder (matching target last))) := by
  have hfalse : (Domain.ofLeaf rest op right).isFalse = .ok false := by
    rcases he.isFalse rest with ⟨v, hwithin, -⟩ | hfalse
    · exact absurd hwithin hop
    · exact hfalse
  unfold findWith
  rw [hfalse]
  exact .bind (.pure false) (.bind (he.query_yields hr hactive hhas fuel) (.pure _))

end

/-- Over an accepted registry whose models keep their ids, where records out of use are not hidden: a pattern that is
    taken as it stands, on a plain column at the end of a path through lines whose inverse has a column, compiles to a
    condition, and its negation to that condition under `NOT`. For a record with an id the negation is the complement,
    unless the lines are read in place, the record owns no matching line and some matching line has no owner. -/
theorem compile_retained_not (c : Compiler) (hr : c.registry.Valid) (hid : c.registry.KeepsIds)
    (hactive : c.context.activeTest = false) {model : String} {m : Model} (hm : c.registry.model model = .ok m) {q : Query}
    {joins : List Join} {p : Place} {f inverse : Field} {target : Model}
    (hp : Delegates c.registry f.name ⟨m, q.tableAlias⟩ joins p) (hlines : HasLines c.registry p.model f target inverse)
    (hstore : inverse.store) {rest : String} {op : Operator} {right : Operand} {last : Cond}
    (hop : op = .eqLike ∨ op = .eqIlike) (he : Endpoint c.registry c.context target ⟨rest, op, right⟩ last) {fuel : Nat}
    (hfuel : joins.length + 4 ≤ fuel) :
    let l : Leaf := ⟨f.name ++ "." ++ rest, op, right⟩
    ∃ cond, (∀ tr,
        (∃ tr', (c.compile fuel model [.leaf l] q).run tr = ((.ok (), (joins.foldl .addJoin q).addCondition cond), tr')) ∧
        ∃ tr', (c.compile fuel model [.not, .leaf l] q).run tr =
          ((.ok (), (joins.foldl .addJoin q).addCondition (.not cond)), tr')) ∧
      ∀ {V : Type} (db : Database V) (row : Row V), row ⟨p.tableAlias, "id"⟩ ≠ none →
        (((Cond.not cond).truth db.engine row).holds = (!(cond.truth db.engine row).holds) ↔
          ¬(f.autoJoin = true ∧ (∃ line, Matches db target last line ∧ line inverse.name = none) ∧
            ¬∃ line, Matches db target last line ∧
              db.base.equals (row ⟨p.tableAlias, "id"⟩) (line inverse.name) = true)) := by
  intro l
  have hhas : c.registry.Has p.model := hp.has (s := c.setting c.context) (Registry.has_of_model hm)
  have hkeeps : l.op.negate? = none := by
    show op.negate? = none
    rcases hop with rfl | rfl <;> rfl
  have hwithin : op ≠ .within := by
    rintro rfl
    rcases hop with hop | hop <;> cases hop
  have hpath : l.path.1 = f.name := by
    show (Leaf.mk (f.name ++ "." ++ rest) op right).path.1 = f.name
    rw [Leaf.path_append (Text.not_mem_of_isIdentifier (hr.isIdentifier_field hhas hlines.field) (by decide))]
  have hfrom : Delegates c.registry l.path.1 ⟨m, q.tableAlias⟩ joins p := hpath ▸ hp
  have hrow : ∀ {V : Type} (db : Database V) (row : Row V) (cond : Cond),
      ((Cond.not cond).truth db.engine row).holds = (!(cond.truth db.engine row).holds) ↔
        cond.truth db.engine row ≠ .unknown := fun db row cond => Truth.holds_not_iff
  obtain ⟨k, rfl⟩ : ∃ k, fuel = k + 2 := ⟨fuel - 2, by omega⟩
  -- What the leaf settles with decides both compilations.
  have compiles : ∀ {n cond}, n ≤ 3 → Settles (c.setting c.context) (c.queryIn (k + 2)) n l p cond → ∀ tr,
      (∃ tr', (c.compile (k + 2) model [.leaf l] q).run tr = ((.ok (), (joins.foldl .addJoin q).addCondition cond), tr')) ∧
      ∃ tr', (c.compile (k + 2) model [.not, .leaf l] q).run tr =
        ((.ok (), (joins.foldl .addJoin q).addCondition (.not cond)), tr') := fun hn hsettles tr =>
    ⟨hsettles.compileFrom hfrom he.op (by omega) hm rfl tr, hsettles.compileNot hfrom he.op hkeeps (by omega) hm rfl tr⟩
  cases hauto : f.autoJoin with
  | true =>
    have hsettles := hlines.joined_settles (s := c.setting c.context) hr hhas (hid _ hhas) hauto he.op
      (he.query_yields hr hactive hlines.has k)
    refine ⟨_, compiles (by omega) hsettles, fun db row hset => ?_⟩
    obtain ⟨id, hset⟩ := Option.ne_none_iff_exists'.mp hset
    refine (hrow db row _).trans (not_congr ((truth_inverses hset).trans ?_))
    simp only [true_and]
  | false =>
    obtain ⟨n, hn, hsettles⟩ := hlines.path_settles (s := c.setting c.context) hr hhas (hid _ hhas) hstore hauto he.op
      (he.find_yields hr hactive hlines.has hwithin k)
    refine ⟨_, compiles hn hsettles, fun db row hset => ?_⟩
    refine (hrow db row _).trans (iff_of_true (truth_owners hset _) ?_)
    rintro ⟨hjoined, -⟩
    cases hjoined

/-! ### Items in baskets -/

/-- The items of a basket are read in place. -/
def basketModel : Model :=
  (Model.ofTable "basket" "basket").withField { Field.one2many "items" "item" "basket" with autoJoin := true }

def basketItem : Model :=
  ((Model.ofTable "item" "item").withField (Field.many2one "basket" "basket")).withField { name := "name", type := .char }

/-- A compiler for baskets and items, without a database. -/
def basketCompiler : Compiler where
  registry := { models := (Keyed.empty.insert "basket" basketModel).insert "item" basketItem }
  context := taskCompiler.context

theorem valid_baskets : basketCompiler.registry.Valid where
  built := .register (m := basketItem) (.register (m := basketModel) .empty rfl) rfl
  validated := rfl

theorem keepsIds_baskets : basketCompiler.registry.KeepsIds := by
  rintro m ⟨name, hname⟩
  have hmem : (name, m) ∈ [("basket", basketModel), ("item", basketItem)] := Registry.mem_of_lookup hname
  simp only [List.mem_cons, List.not_mem_nil, or_false, Prod.mk.injEq] at hmem
  rcases hmem with ⟨-, rfl⟩ | ⟨-, rfl⟩ <;> rfl

theorem hasLines_baskets :
    HasLines basketCompiler.registry basketModel { Field.one2many "items" "item" "basket" with autoJoin := true } basketItem
      (Field.many2one "basket" "basket") where
  field := rfl
  store := rfl
  type := rfl
  comodel := rfl
  inverse := rfl

/-- Items that are called pear. -/
def pearCondition : Cond := .group (.compare (.cast ⟨"item", "name"⟩) .eqLike (.text "pear") false)

theorem endpoint_items :
    Endpoint basketCompiler.registry basketCompiler.context basketItem ⟨"name", .eqLike, .value (.str "pear")⟩
      pearCondition := by
  have hplain : classify basketCompiler.registry basketItem ⟨"name", .eqLike, .value (.str "pear")⟩ = .ok .plain := rfl
  exact
    { plain := hplain
      op := by simp
      listed := by
        rintro (h | h) <;> cases h
      condition := rfl }

/-- Baskets with an item called pear, read in place. -/
theorem compile_retained_not_items :
    let l : Leaf := ⟨"items.name", .eqLike, .value (.str "pear")⟩
    let f := { Field.one2many "items" "item" "basket" with autoJoin := true }
    let c := basketCompiler
    let q := Query.ofTable "basket"
    c.registry.Valid ∧ c.registry.KeepsIds ∧ c.context.activeTest = false ∧
      c.registry.model "basket" = .ok basketModel ∧
      Delegates c.registry f.name ⟨basketModel, "basket"⟩ [] ⟨basketModel, "basket"⟩ ∧
      HasLines c.registry basketModel f basketItem (Field.many2one "basket" "basket") ∧
      Endpoint c.registry c.context basketItem ⟨"name", .eqLike, .value (.str "pear")⟩ pearCondition ∧
      ∃ cond, (∀ tr,
          (∃ tr', (c.compile 4 "basket" [.leaf l] q).run tr = ((.ok (), q.addCondition cond), tr')) ∧
          ∃ tr', (c.compile 4 "basket" [.not, .leaf l] q).run tr = ((.ok (), q.addCondition (.not cond)), tr')) ∧
        ∀ {V : Type} (db : Database V) (row : Row V), row ⟨"basket", "id"⟩ ≠ none →
          (((Cond.not cond).truth db.engine row).holds = (!(cond.truth db.engine row).holds) ↔
            ¬(true = true ∧ (∃ line, Matches db basketItem pearCondition line ∧ line "basket" = none) ∧
              ¬∃ line, Matches db basketItem pearCondition line ∧
                db.base.equals (row ⟨"basket", "id"⟩) (line "basket") = true)) := by
  intro l f c q
  have hm : c.registry.model "basket" = .ok basketModel := rfl
  have hdelegates : Delegates c.registry f.name ⟨basketModel, "basket"⟩ [] ⟨basketModel, "basket"⟩ := .here _
  have hcompiled := compile_retained_not c valid_baskets keepsIds_baskets rfl hm (q := q) hdelegates hasLines_baskets rfl
    (.inl rfl) endpoint_items (Nat.le_refl 4)
  exact ⟨valid_baskets, keepsIds_baskets, rfl, hm, hdelegates, hasLines_baskets, endpoint_items, hcompiled⟩

/-- One basket, and a pear in no basket. -/
def loosePear : Database Datum where
  base := Datum.engine
  records
    | "basket" => [.ofList [("id", .number 1)]]
    | "item" => [.ofList [("id", .number 1), ("name", .text "pear")]]
    | _ => []

/-- Because of a pear in no basket, an empty basket is found neither among those with a pear nor among the others. -/
theorem loose_pear_hides_basket :
    let c := basketCompiler
    let l : Leaf := ⟨"items.name", .eqLike, .value (.str "pear")⟩
    let q := Query.ofTable "basket"
    let basket := Record.ofList [("id", .number 1)]
    c.registry.Valid ∧ c.registry.KeepsIds ∧ c.context.activeTest = false ∧ basket ∈ loosePear.records "basket" ∧
      ∃ cond, (∀ tr,
          (∃ tr', (c.compile 4 "basket" [.leaf l] q).run tr = ((.ok (), q.addCondition cond), tr')) ∧
          ∃ tr', (c.compile 4 "basket" [.not, .leaf l] q).run tr = ((.ok (), q.addCondition (.not cond)), tr')) ∧
        cond.truth loosePear.engine (basket.under "basket") = .unknown ∧
        (cond.truth loosePear.engine (basket.under "basket")).holds = false ∧
        ((Cond.not cond).truth loosePear.engine (basket.under "basket")).holds = false := by
  intro c l q basket
  have hm : c.registry.model "basket" = .ok basketModel := rfl
  have hdelegates : Delegates c.registry l.path.1 ⟨basketModel, "basket"⟩ [] ⟨basketModel, "basket"⟩ := .here _
  have hsettles := hasLines_baskets.joined_settles (s := c.setting c.context) (p := ⟨basketModel, "basket"⟩) valid_baskets
    (Registry.has_of_model hm) (keepsIds_baskets _ (Registry.has_of_model hm)) rfl endpoint_items.op
    (endpoint_items.query_yields valid_baskets rfl hasLines_baskets.has 2)
  have hrow : basket.under "basket" ⟨"basket", "id"⟩ = some (.number 1) := rfl
  have hunknown : (idWithin ⟨basketModel, "basket"⟩ ((matching basketItem pearCondition).subselect
      (.column ⟨basketItem.table, (Field.many2one "basket" "basket").name⟩))).truth loosePear.engine (basket.under "basket") =
        .unknown := by
    refine (truth_inverses hrow).mpr ⟨?_, ?_⟩
    · exact ⟨.ofList [("id", .number 1), ("name", .text "pear")], ⟨List.mem_singleton.mpr rfl, rfl⟩, rfl⟩
    · rintro ⟨line, ⟨hline, -⟩, heq⟩
      cases List.mem_singleton.mp hline
      cases heq
  refine ⟨valid_baskets, keepsIds_baskets, rfl, List.mem_singleton.mpr rfl, _, fun tr => ⟨?_, ?_⟩, hunknown, ?_, ?_⟩
  · exact hsettles.compileFrom hdelegates endpoint_items.op (by decide) hm rfl tr
  · exact hsettles.compileNot hdelegates endpoint_items.op rfl (by decide) hm rfl tr
  · rw [hunknown]
    rfl
  · rw [Cond.truth, hunknown]
    rfl

end RecordFilter.Compile
