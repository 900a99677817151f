import RecordFilter.Proofs.Compile.Crossing

/-! Whether paths through a many2one field join its table or search its records apart. The compilation with the join
    and the one without are followed side by side, leaf by leaf; their conditions agree on rows with the same record,
    and the search behind the field selects a record just where the rest of the path holds past the join. -/

namespace RecordFilter.Compile
open Sql

variable {V : Type} {db : Database V} {c : Compiler} {m : Model} {d : Domain} {model field : String}

/-! ### Two compilations -/

/-- A compilation in which paths through a field may be joined or searched apart. -/
structure Flips (db : Database V) (c : Compiler) (m : Model) (d : Domain) (model field : String) : Prop where
  valid : c.registry.Valid
  joins : c.registry.JoinsThrough model field
  active : c.context.activeTest = false
  root : c.registry.Has m
  keys : db.HasKeys c.registry
  impartial : Impartial db c.registry c.backend model field
  chains : ChainsApart db c m d
  chainsApart : ChainsApart db (c.apart model field) (m.apart model field) d
  crosses : ∀ ⦃x l target rest right⦄, Comes db c m d x l → Crosses c.registry model field x.model l target rest →
    l.right.SameIn db right → CrossesSafely db (c.apart model field) x field target ⟨rest, l.op, right⟩

/-- Two terms of one shape, at a spot of the one compilation and at the corresponding spot of the other. -/
structure Beside (db : Database V) (c : Compiler) (m : Model) (d : Domain) (model field : String) (x x' : Spot)
    (t t' : Term Leaf) : Prop where
  left : ComeUp db c m d x t
  right : ComeUp db (c.apart model field) (m.apart model field) d x' t'
  terms : Term.Forall₂ (Leaf.Over (Operand.SameIn db)) t t'
  model : x'.model = x.model.apart model field

/-- Two rows that fit the joins of two queries and hold the same record at two spots. -/
structure Meet (db : Database V) (x x' : Spot) (q q' : Query) (row row' : Row V) : Prop where
  left : ∀ j ∈ q.joins, db.Fits j row
  right : ∀ j ∈ q'.joins, db.Fits j row'
  record : row.record x.place.tableAlias = row'.record x'.place.tableAlias
  held : x.held → row.record x.place.tableAlias ∈ db.records x.model.table

/-- Rows that meet in two queries meet in what these were before. -/
theorem Meet.before {x x' : Spot} {q₁ q₁' q q' : Query} {row row' : Row V} (h : Meet db x x' q q' row row')
    (hq : q₁.Extends q) (hq' : q₁'.Extends q') : Meet db x x' q₁ q₁' row row' where
  left j hj := h.left j (hq.joins.subset hj)
  right j hj := h.right j (hq'.joins.subset hj)
  record := h.record
  held := h.held

/-- Wherever both terms are compiled, their conditions agree on rows that meet. -/
def Agrees (db : Database V) (c : Compiler) (m : Model) (d : Domain) (model field : String) (n depth n' depth' : Nat)
    (x x' : Spot) (t t' : Term Leaf) : Prop :=
  ∀ ⦃cond q cond' q' row row'⦄, Compiles db c m d n depth x t cond q →
    Compiles db (c.apart model field) (m.apart model field) d n' depth' x' t' cond' q' → Meet db x x' q q' row row' →
    Agree x.kept (cond.truth db.engine row) (cond'.truth db.engine row')

/-- The domain is searched for in a query of its own. -/
def Searched (db : Database V) (c : Compiler) (m : Model) (d : Domain) (root : Model) (e : Domain) : Prop :=
  ∀ t : Term Leaf, Domain.distributeNot e = .ok t.spell → ComeUp db c m d (.start root false) t

theorem Searches.searched {x : Spot} {l : Leaf} {root : Model} {e : Domain} (hl : Comes db c m d x l)
    (h : Searches (c.setting c.context) l x.place root e) : Searched db c m d root e := by
  intro t ht k l' hl'
  rw [Spot.start_under, Bool.false_or]
  exact .behind hl h ht hl'

theorem searched_self (c : Compiler) (m : Model) : Searched db c m d m d := by
  intro t ht k l hl
  rw [Spot.start_under, Bool.false_or]
  exact .start ht hl

namespace Flips
variable {x x' : Spot} {t t' : Term Leaf} {l l' : Leaf}

/-! ### Terms -/

theorem agrees_of_leaf (h : Flips db c m d model field) {n depth n' depth' : Nat}
    (hleaf : ∀ x x' l l', Beside db c m d model field x x' (.leaf l) (.leaf l') →
      Agrees db c m d model field n depth n' depth' x x' (.leaf l) (.leaf l'))
    (hb : Beside db c m d model field x x' t t') : Agrees db c m d model field n depth n' depth' x x' t t' := by
  obtain ⟨hleft, hright, hover, hmodel⟩ := hb
  induction hover generalizing x x' with
  | const b =>
    intro cond q cond' q' row row' hc hc' _
    rw [hc.const, hc'.const]
    exact .of_eq rfl
  | leaf hl => exact hleaf x x' _ _ ⟨hleft, hright, .leaf hl, hmodel⟩
  | not _ ih =>
    intro cond q cond' q' row row' hc hc' hmeet
    obtain ⟨cond₁, rfl, ht⟩ := hc.not
    obtain ⟨cond₁', rfl, ht'⟩ := hc'.not
    have hagree := ih hleft.not hright.not hmodel ht ht' ⟨hmeet.left, hmeet.right, hmeet.record, hmeet.held⟩
    rw [show (x.under true).kept = true from Bool.or_true _] at hagree
    exact hagree.not
  | and _ _ iha ihb =>
    intro cond q cond' q' row row' hc hc' hmeet
    obtain ⟨ca, cb, q₁, rfl, ha, hb, hextends⟩ := hc.and h.chains hleft
    obtain ⟨ca', cb', q₁', rfl, ha', hb', hextends'⟩ := hc'.and h.chainsApart hright
    exact .and (iha hleft.and.1 hright.and.1 hmodel ha ha' hmeet)
      (ihb hleft.and.2 hright.and.2 hmodel hb hb' (hmeet.before hextends hextends'))
  | or _ _ iha ihb =>
    intro cond q cond' q' row row' hc hc' hmeet
    obtain ⟨ca, cb, q₁, rfl, ha, hb, hextends⟩ := hc.or h.chains hleft
    obtain ⟨ca', cb', q₁', rfl, ha', hb', hextends'⟩ := hc'.or h.chainsApart hright
    exact .or (iha hleft.or.1 hright.or.1 hmodel ha ha' hmeet)
      (ihb hleft.or.2 hright.or.2 hmodel hb hb' (hmeet.before hextends hextends'))

/-! ### Leaves -/

/-- Past a relation that is never missing there is a record. -/
theorem held_past {link : String} {target : Model} {row : Row V}
    (hheld : x.held → row.record x.place.tableAlias ∈ db.records x.model.table) (hfits : db.Fits (x.join link target) row)
    (hpast : (x.past db link target).held) :
    row.record (x.past db link target).place.tableAlias ∈ db.records target.table := by
  obtain ⟨hx, hfilled⟩ := hpast
  rw [← x.join_tableAlias db]
  cases hfits with
  | found hmem _ => exact hmem
  | missed _ hnone =>
    obtain ⟨b, hb, heq⟩ := hfilled _ (hheld hx)
    exact absurd ((hnone b hb).symm.trans heq) Bool.false_ne_true

/-- Past the same relation both rows hold the same record. -/
theorem meet_past (h : Flips db c m d model field) {link : String} {target : Model} {q q' : Query} {row row' : Row V}
    (hmeet : Meet db x x' q q' row row') (htarget : c.registry.Has target) (hj : x.join link target ∈ q.joins)
    (hj' : x'.join link (target.apart model field) ∈ q'.joins) :
    Meet db (x.past db link target) (x'.past db link (target.apart model field)) q q' row row' := by
  have hfits := hmeet.left _ hj
  have hsame := hfits.same (hmeet.right _ hj') (h.keys target htarget).1 Model.apart_table rfl
    (congrFun hmeet.record link).symm
  rw [x.join_tableAlias db, x'.join_tableAlias db] at hsame
  exact ⟨hmeet.left, hmeet.right, hsame.symm, held_past hmeet.held hfits⟩

/-- What the rest of a path says past the join, the query of a search for it says of the records. -/
theorem agrees_search (h : Flips db c m d model field) {n depth : Nat}
    (hbelow : ∀ n' depth' x x' t t', Beside db c m d model field x x' t t' →
      Agrees db c m d model field n depth n' depth' x x' t t')
    (hx' : Comes db (c.apart model field) (m.apart model field) d x' l') (hl : l.Over (Operand.SameIn db) l') {f : Field}
    {target : Model} {rest : String} (htarget : c.registry.Has target)
    (hpath : classify (c.registry.apart model field) x'.model l' = .ok (.path f (target.apart model field) rest))
    (hpast : Comes db c m d (x.past db field target) { l with left := rest }) {cond : Cond} {q : Query} {row : Row V}
    (hc : Compiles db c m d n depth (x.past db field target) (.leaf { l with left := rest }) cond q)
    (hleft : ∀ j ∈ q.joins, db.Fits j row)
    (hheld : (x.past db field target).held →
      row.record (x.past db field target).place.tableAlias ∈ db.records target.table)
    {q₂ : Query} (hq₂ : Asks (c.apart model field) target ⟨rest, l'.op, l'.right⟩ q₂) :
    ∃ q₁ cond₁, q₂ = q₁.addCondition cond₁ ∧
      Tidy db (c.apart model field) (m.apart model field) d (target.apart model field) q₁ ∧
      ∀ row', (∀ j ∈ q₁.joins, db.Fits j row') →
        row.record (x.join field target).tableAlias = row'.record (target.apart model field).table →
        Agree x.kept (cond.truth db.engine row) (cond₁.truth db.engine row') := by
  have hmodel : (c.apart model field).registry.model target.name = .ok (target.apart model field) :=
    Registry.model_apart (h.valid.built.model_eq htarget)
  have hsearch : Searches ((c.apart model field).setting c.context) l' x'.place (target.apart model field)
    (.ofLeaf rest l'.op l'.right) := .path hpath
  have hcomes : Comes db (c.apart model field) (m.apart model field) d (.start (target.apart model field) false)
    ⟨rest, l'.op, l'.right⟩ := .behind hx' hsearch (t := .leaf ⟨rest, l'.op, l'.right⟩) rfl (.leaf _)
  obtain ⟨n₂, tr, tr₂, hgives⟩ := hq₂
  have hactive : (c.apart model field).context.activeTest = false := h.active
  obtain ⟨root, hroot, ⟨hnil, -⟩ | ⟨-, n', e', cond₁, q₁, -, hterm, rfl, hcompiles⟩⟩ :=
    query_compiles db (m.apart model field) d hactive hgives
  · cases hnil
  cases hmodel.symm.trans hroot
  cases hterm
  have hc' := hcompiles (.leaf ⟨rest, l'.op, l'.right⟩) rfl
  refine ⟨q₁, cond₁, rfl, hc'.tidy h.chainsApart (.of_leaf hcomes), fun row' hright hrecord => ?_⟩
  rw [x.join_tableAlias db] at hrecord
  exact hbelow _ _ _ _ _ _ ⟨.of_leaf hpast, .of_leaf hcomes, .leaf ⟨rfl, hl.op, hl.right⟩, rfl⟩ hc hc'
    ⟨hleft, hright, hrecord, hheld⟩

/-- A leaf that is joined on the one side and searched apart on the other. -/
theorem agrees_cross (h : Flips db c m d model field) {n depth n' depth' : Nat}
    (hbelow : ∀ n' depth' x x' t t', Beside db c m d model field x x' t t' →
      Agrees db c m d model field n depth n' depth' x x' t t')
    (hx : Comes db c m d x l) (hx' : Comes db (c.apart model field) (m.apart model field) d x' l')
    (hl : l.Over (Operand.SameIn db) l') {f : Field} {target : Model} {rest : String} {found : Found}
    (hcross : Crosses c.registry model field x.model l target rest)
    (hrefers : Refers (c.registry.apart model field) x'.model field f (target.apart model field))
    (hpath : classify (c.registry.apart model field) x'.model l' = .ok (.path f (target.apart model field) rest))
    (hfound : Finds ((c.apart model field).queryIn n') c.context target.name (.ofLeaf rest l'.op l'.right) found)
    {cond cond' : Cond} {q q' : Query} {row row' : Row V}
    (hpast : Comes db c m d (x.past db field target) { l with left := rest })
    (hc : Compiles db c m d n depth (x.past db field target) (.leaf { l with left := rest }) cond q)
    (hj : x.join field target ∈ q.joins)
    (hc' : Compiles db (c.apart model field) (m.apart model field) d n' depth' x'
      (.leaf ⟨field, .within, found.operand⟩) cond' q')
    (hmeet : Meet db x x' q q' row row') :
    Agree x.kept (cond.truth db.engine row) (cond'.truth db.engine row') := by
  have hfits := hmeet.left _ hj
  have htarget : c.registry.Has target := by
    cases classify_ok hcross.kind with
    | joinedPath _ hcomodel => exact Registry.has_of_comodel hcomodel
  have hdotless : '.' ∉ field.toList := by
    obtain ⟨m', f', hm', hf', -⟩ := h.joins
    exact Text.not_mem_of_isIdentifier (h.valid.isIdentifier_field (Registry.has_of_model hm') hf') (by decide)
  -- The side without the join compares the reference with the found ids.
  have hcond' : cond' = refersTo field target x'.place found := by
    have hyields : (reduce ((c.apart model field).setting c.context) ((c.apart model field).queryIn n')
        ⟨field, .within, found.operand⟩ x'.place).Yields (.emit _) := hrefers.reduce_yields hdotless found
    rw [hc'.emit hyields]
    cases found <;> rfl
  have hsafe : CrossesSafely db (c.apart model field) x field target ⟨rest, l'.op, l'.right⟩ :=
    hl.op ▸ h.crosses hx hcross hl.right
  rw [hcond']
  exact hsafe.agree h.keys htarget Model.apart_table hfits hmeet.held hmeet.record hfound fun q₂ hq₂ =>
    h.agrees_search hbelow hx' hl htarget hpath hpast hc hmeet.left (held_past hmeet.held hfits) hq₂

/-- The queries that search for the records of corresponding domains select the same records. -/
def QueriesAgree (db : Database V) (c : Compiler) (m : Model) (d : Domain) (model field : String) (n : Nat) : Prop :=
  ∀ ⦃n' root e e'⦄, c.registry.Has root → Searched db c m d root e →
    Searched db (c.apart model field) (m.apart model field) d (root.apart model field) e' →
    e.Over (Operand.SameIn db) e' →
    Run.Relates (SelectsSame db) (c.queryIn n c.context root.name e)
      ((c.apart model field).queryIn n' c.context root.name e')

theorem agrees_leaf (h : Flips db c m d model field) {n depth : Nat} (hqueries : QueriesAgree db c m d model field n)
    (hbelow : ∀ n' depth' x x' t t', Beside db c m d model field x x' t t' →
      Agrees db c m d model field n depth n' depth' x x' t t') (n' depth' : Nat)
    (hb : Beside db c m d model field x x' (.leaf l) (.leaf l')) :
    Agrees db c m d model field n (depth + 1) n' depth' x x' (.leaf l) (.leaf l') := by
  intro cond q cond' q' row row' hc hc' hmeet
  obtain ⟨hleft, hright, ⟨⟩ | ⟨hl⟩, hmodel⟩ := hb
  have hx : Comes db c m d x l := hleft.leaf
  have hx' : Comes db (c.apart model field) (m.apart model field) d x' l' := hright.leaf
  have hhas : c.registry.Has x.model := (hx.has h.root).2
  cases depth' with
  | zero => exact hc'.of_zero.elim
  | succ depth' =>
  obtain ⟨step, tr, tr₁, hreduce, hemit, hstead, hpast⟩ := hc.leaf h.chains hx
  obtain ⟨step', tr', tr₁', hreduce', hemit', hstead', hpast'⟩ := hc'.leaf h.chainsApart hx'
  have hcounter : Counterparts db (c.setting c.context) (c.queryIn n) ((c.apart model field).queryIn n') model field l l'
      x.place x'.place := by
    refine ⟨h.impartial, hl, hmodel, fun root e e' hs hs' hover => ?_⟩
    exact hqueries hs.has (hs.searched hx) (hs'.searched hx') hover
  cases hcounter.reduce h.valid.built h.joins hhas h.active hreduce hreduce' with
  | emit hsame =>
    cases hemit _ rfl
    cases hemit' _ rfl
    exact .of_eq (hsame hmeet.record)
  | stead hterms =>
    have hreduces := reduce_meets.gives hreduce
    have hreduces' := reduce_meets.gives hreduce'
    have hb : Beside db c m d model field x x' _ _ :=
      ⟨fun k l₁ hl₁ => .stead hx hreduces hl₁, fun k l₁ hl₁ => .stead hx' hreduces' hl₁, hterms, hmodel⟩
    exact hbelow _ _ _ _ _ _ hb (hstead _ rfl) (hstead' _ rfl) hmeet
  | follow hl₁ =>
    have hfollows := Comes.past hx (reduce_meets.gives hreduce)
    have hfollows' := Comes.past hx' (reduce_meets.gives hreduce')
    obtain ⟨hrest, hj⟩ := hpast _ _ _ rfl
    obtain ⟨hrest', hj'⟩ := hpast' _ _ _ rfl
    exact hbelow _ _ _ _ _ _ ⟨.of_leaf hfollows, .of_leaf hfollows', .leaf hl₁, rfl⟩ hrest hrest'
      (h.meet_past hmeet (hfollows.has h.root).2 hj hj')
  | cross hcross hrefers hpath hfound =>
    obtain ⟨hrest, hj⟩ := hpast _ _ _ rfl
    exact h.agrees_cross hbelow hx hx' hl hcross hrefers hpath hfound (.past hx (reduce_meets.gives hreduce)) hrest hj
      (hstead' (.leaf _) rfl) hmeet

theorem agrees (h : Flips db c m d model field) {n : Nat} (hqueries : QueriesAgree db c m d model field n) (depth : Nat)
    (n' depth' : Nat) (hb : Beside db c m d model field x x' t t') :
    Agrees db c m d model field n depth n' depth' x x' t t' := by
  -- By induction on the replacements in the stead of a leaf.
  induction depth generalizing n' depth' x x' t t' with
  | zero => exact h.agrees_of_leaf (fun x x' l l' _ _ _ _ _ _ _ hc => hc.of_zero.elim) hb
  | succ depth ih =>
    refine h.agrees_of_leaf (fun x x' l l' hb => ?_) hb
    exact h.agrees_leaf hqueries (fun n' depth' x x' t t' => ih n' depth') n' depth' hb

end Flips

/-! ### Queries -/

/-- A record that is selected by the one query is selected by the other, where the condition of the first one holds on no
    row without that of the second one on the rows with the same record. -/
theorem Tidy.selects_of {c' : Compiler} {m' : Model} {d' : Domain} {root root' : Model} {q q' : Query} {cond cond' : Cond}
    (hq : Tidy db c m d root q) (hq' : Tidy db c' m' d' root' q') (htable : root'.table = root.table)
    (h : ∀ ⦃row row' : Row V⦄, (∀ j ∈ q.joins, db.Fits j row) → (∀ j ∈ q'.joins, db.Fits j row') →
      row.record root.table = row'.record root'.table → row.record root.table ∈ db.records root.table →
      (cond.truth db.engine row).holds = true → (cond'.truth db.engine row').holds = true) {a : Record V}
    (ha : db.Selects (q.addCondition cond) a) : db.Selects (q'.addCondition cond') a := by
  obtain ⟨row, hrow, hholds, rfl⟩ := (hq.selects cond a).mp ha
  obtain ⟨hrecord, hfits⟩ := hq.laidFromRoot.fits hrow
  have hrecord' : row.record root.table ∈ db.records root'.table := by
    rw [htable]
    exact hrecord
  obtain ⟨row', hrow', hsame⟩ := hq'.laidFromRoot.exists_row hrecord'
  exact (hq'.selects cond' _).mpr
    ⟨row', hrow', h hfits (hq'.laidFromRoot.fits hrow').2 hsame.symm hrecord hholds, hsame⟩

namespace Flips

theorem queriesAgree (h : Flips db c m d model field) (n : Nat) : QueriesAgree db c m d model field n := by
  -- By induction on the queries inside queries.
  induction n with
  | zero =>
    intro n' root e e' _ _ _ _ tr q tr₁ tr' q' tr₁' hq
    cases hq
  | succ n ih =>
    intro n' root e e' hroot hs hs' hover tr q tr₁ tr' q' tr₁' hq hq'
    have hmodel := h.valid.built.model_eq hroot
    have hmodel' : (c.apart model field).registry.model root.name = .ok (root.apart model field) :=
      Registry.model_apart hmodel
    have hactive : (c.apart model field).context.activeTest = false := h.active
    obtain ⟨r, hr, hquery⟩ := query_compiles db m d h.active hq
    obtain ⟨r', hr', hquery'⟩ := query_compiles db (m.apart model field) d hactive hq'
    cases hmodel.symm.trans hr
    cases hmodel'.symm.trans hr'
    rcases hquery with ⟨rfl, rfl⟩ | ⟨hne, n₁, e₁, cond, q₁, hn, hterm, rfl, hc⟩
    · -- Neither domain has a condition.
      cases hover
      rcases hquery' with ⟨-, rfl⟩ | ⟨hne, -⟩
      · rw [Model.apart_table]
        exact ⟨⟨rfl, rfl⟩, ⟨rfl, rfl⟩, fun a => Iff.rfl⟩
      · exact absurd rfl hne
    · cases hn
      rcases hquery' with ⟨rfl, -⟩ | ⟨-, n₁', e₁', cond', q₁', -, hterm', rfl, hc'⟩
      · cases hover
        exact absurd rfl hne
      obtain ⟨t, t', rfl, rfl, hterms⟩ := hover.distributeNot hterm hterm'
      have hb : Beside db c m d model field (.start root false) (.start (root.apart model field) false) t t' :=
        ⟨hs t hterm, hs' t' hterm', hterms, rfl⟩
      have hc := hc t rfl
      have hc' := hc' t' rfl
      have htidy : Tidy db c m d root q₁ := hc.tidy h.chains hb.left
      have htidy' : Tidy db (c.apart model field) (m.apart model field) d (root.apart model field) q₁' :=
        hc'.tidy h.chainsApart hb.right
      have htable : (root.apart model field).table = root.table := Model.apart_table
      have hagree := h.agrees ih n n₁' n₁' hb
      refine ⟨htidy.window, htidy'.window, fun a => ⟨fun ha => ?_, fun ha => ?_⟩⟩
      · refine htidy.selects_of htidy' htable (fun row row' hfits hfits' hrecord hmem hholds => ?_) ha
        rw [← (hagree hc hc' ⟨hfits, hfits', hrecord, fun _ => hmem⟩).holds]
        exact hholds
      · refine htidy'.selects_of htidy htable.symm (fun row row' hfits hfits' hrecord hmem hholds => ?_) ha
        have hmem' : row'.record root.table ∈ db.records root.table := by
          rw [← hrecord, ← htable]
          exact hmem
        rw [(hagree hc hc' ⟨hfits', hfits, hrecord.symm, fun _ => hmem'⟩).holds]
        exact hholds

end Flips

/-- So the compiled query selects the same records whether paths through the field are joined or searched apart. -/
theorem selects_apart (h : Flips db c m d model field) {n n' : Nat} {q q' : Query} {t t₁ t' t₁' : Trace}
    (hq : (c.query n m.name d).Gives t q t₁) (hq' : ((c.apart model field).query n' m.name d).Gives t' q' t₁') :
    SelectsSame db q q' := by
  exact h.queriesAgree n h.root (searched_self c m) (searched_self _ _) (.refl .refl d) hq hq'

/-! ### Partners and their countries -/

/-- Leaves of the kind are compared with a column, or they lead on past a join. -/
def FieldKind.isColumnar : FieldKind → Bool
  | .joinedPath .. | .plain => true
  | _ => false

theorem Reduces.of_isColumnar {s : Setting} {build : QueryBuilder} {l : Leaf} {p : Place} {kind : FieldKind} {step : Step}
    (h : Reduces s build l p step) (hk : classify s.registry p.model l = .ok kind) (hcolumnar : kind.isColumnar = true)
    (hop : l.op ≠ .eqIfSet) :
    (∃ cond, step = .emit cond) ∨ ∃ comodel rest, kind = .joinedPath comodel rest ∧
      step = .followTo { l with left := rest } p l.path.1 comodel := by
  have other : ∀ {kind'}, classify s.registry p.model l = .ok kind' → kind'.isColumnar = true := fun hk' =>
    Except.ok.inj (hk.symm.trans hk') ▸ hcolumnar
  cases h with
  | holds | noLines | linkedFound | linked | plain | translated => exact .inl ⟨_, rfl⟩
  | equal hop' => exact absurd hop' hop
  | joined hk' => exact .inr ⟨_, _, Except.ok.inj (hk.symm.trans hk'), rfl⟩
  | hierarchy hf => cases hf with | id hk' | parent hk' | reference hk' | children hk' | lines hk' => cases other hk'
  | inherited hk' | lines hk' | path hk' | hook hk' | heldLines hk' | owners hk' | relatives hk' | anyLink hk'
  | named _ hk' | attached hk' | widened hk' => cases other hk'

theorem Searches.not_isColumnar {s : Setting} {l : Leaf} {p : Place} {kind : FieldKind} {target : Model} {e : Domain}
    (h : Searches s l p target e) (hk : classify s.registry p.model l = .ok kind) : kind.isColumnar = false := by
  have other : ∀ {kind'}, classify s.registry p.model l = .ok kind' → kind = kind' := fun hk' =>
    Except.ok.inj (hk.symm.trans hk')
  cases h with
  | path hk' | lines hk' | computed hk' | linked hk' => exact other hk' ▸ rfl
  | hierarchy hf => cases hf with | reference hk' | lines hk' => exact other hk' ▸ rfl

theorem Step.followTo_inj {l l' : Leaf} {p : Place} {link link' : String} {target target' : Model}
    (h : Step.followTo l p link target = .followTo l' p link' target') : l = l' ∧ link = link' ∧ target = target' := by
  injection h with hjoin hitem
  injection hitem with htoken hplace
  injection htoken with hleaf
  exact ⟨hleaf, congrArg Join.sourceColumn hjoin, congrArg Place.model hplace⟩

/-- The records of a leaf on a plain column are those of a query with its condition alone. -/
theorem Endpoint.eq_of_builds {target : Model} {l : Leaf} {cond : Cond} {q : Query} {n : Nat}
    (he : Endpoint c.registry c.context target l cond) (hmodel : c.registry.model target.name = .ok target)
    (hactive : c.context.activeTest = false) (h : Builds (c.queryIn n) c.context target.name [.leaf l] q) :
    q = (Query.ofTable target.table).addCondition cond := by
  obtain ⟨tr, tr', h⟩ := h
  match n with
  | 0 => cases h
  | 1 =>
    -- There is no fuel for the leaf.
    obtain ⟨m', e, hm', he, ⟨rfl, -⟩ | ⟨-, cond', q', tr₁, hon, -⟩⟩ := queryIn_gives h
    · cases he.symm.trans (withActive_of_off hactive m' [.leaf l])
    · cases he.symm.trans (withActive_of_off hactive m' [.leaf l])
      cases hon
  | n + 2 =>
    have hemits : (reduceKind (c.setting c.context) (c.queryIn (n + 1)) l ⟨target, target.table⟩ .plain).Yields
        (.emit cond) := emitLeaf_yields he.condition
    obtain ⟨tr₁, h₁⟩ :=
      (settles_emit (reduce_of_classify he.op he.plain hemits)).queryIn (Nat.succ_pos n) hmodel hactive tr
    cases h.symm.trans h₁
    rfl

/-- A partner from a country with a code, one without a country, and one from a country without a code. -/
def threePartners : Database Datum where
  base := Datum.engine
  records
    | "partner" => [.ofList [("id", .number 1), ("country_id", .number 1)], .ofList [("id", .number 2)],
        .ofList [("id", .number 3), ("country_id", .number 2)]]
    | "country" => [.ofList [("id", .number 1), ("code", .text "NL")], .ofList [("id", .number 2)]]
    | _ => []

theorem joinsThrough_country : userCompiler.registry.JoinsThrough "partner" "country_id" :=
  ⟨partnerModel, _, rfl, rfl, rfl, rfl, rfl⟩

/-- Whichever model they start from, no two chains are spelled alike. -/
theorem speltApart_any {root : Model} (h : userCompiler.registry.Has root) :
    SpeltApart (Leads userCompiler.registry root) root.table := by
  have fromCountry : ∀ {links target}, Leads userCompiler.registry countryModel links target →
      links = [] ∧ target = countryModel := by
    intro links target h
    cases h with
    | here => exact ⟨rfl, rfl⟩
    | through ht _ => exact absurd ht not_traverses_country
  have fromPartner : ∀ {links target}, Leads userCompiler.registry partnerModel links target →
      links = [] ∧ target = partnerModel ∨ links = ["country_id"] ∧ target = countryModel := by
    intro links target h
    cases h with
    | here => exact .inl ⟨rfl, rfl⟩
    | through ht hrest =>
      obtain ⟨rfl, rfl⟩ := traverses_partner ht
      obtain ⟨rfl, rfl⟩ := fromCountry hrest
      exact .inr ⟨rfl, rfl⟩
  rcases has_users h with rfl | rfl | rfl
  · exact speltApart_users
  · intro links links' target target' hleads hleads' halias
    rcases fromPartner hleads with ⟨rfl, rfl⟩ | ⟨rfl, rfl⟩ <;> rcases fromPartner hleads' with ⟨rfl, rfl⟩ | ⟨rfl, rfl⟩
    · exact ⟨rfl, rfl⟩
    · exact absurd halias (by decide)
    · exact absurd halias (by decide)
    · exact ⟨rfl, rfl⟩
  · intro links links' target target' hleads hleads' _
    obtain ⟨rfl, rfl⟩ := fromCountry hleads
    obtain ⟨rfl, rfl⟩ := fromCountry hleads'
    exact ⟨rfl, rfl⟩

theorem hasKeys_threePartners : threePartners.HasKeys userCompiler.registry := by
  have hequals : ∀ {v w : Option Datum}, threePartners.base.equals v w = true → v = w := by
    intro v w h
    match v, w, h with
    | some v, some w, h => exact congrArg some (of_decide_eq_true ((Truth.holds_ofBool _).symm.trans h))
    | some v, none, h => cases h
    | none, _, h => cases threePartners.base.isSome_left_of_equals h
  -- The ids of a table differ.
  have hids : ∀ table ∈ ["user", "partner", "country"], ∀ b ∈ threePartners.records table,
      ∀ b' ∈ threePartners.records table, b "id" = b' "id" → b = b' := by
    intro table htable b hb b' hb' hsame
    simp only [List.mem_cons, List.not_mem_nil, or_false] at htable
    rcases htable with rfl | rfl | rfl <;> simp only [threePartners, List.mem_cons, List.not_mem_nil, or_false] at hb hb'
    · exact absurd hb List.not_mem_nil
    · rcases hb with rfl | rfl | rfl <;> rcases hb' with rfl | rfl | rfl <;> first | rfl | exact absurd hsame (by decide)
    · rcases hb with rfl | rfl <;> rcases hb' with rfl | rfl <;> first | rfl | exact absurd hsame (by decide)
  intro root hroot
  have htable : root.table ∈ ["user", "partner", "country"] := by
    rcases has_users hroot with rfl | rfl | rfl <;> decide
  refine ⟨fun b hb b' hb' v h h' => hids _ htable b hb b' hb' ((hequals h).symm.trans (hequals h')), ?_⟩
  rcases has_users hroot with rfl | rfl | rfl <;> decide

/-- The partners from the Netherlands. -/
abbrev dutch : Leaf := ⟨"country_id.code", .eq, .value (.str "NL")⟩

/-- The leaf comes up on the partner, and past the join on the country. -/
theorem comes_dutch {db : Database V} {x : Spot} {l : Leaf} (h : Comes db userCompiler partnerModel [.leaf dutch] x l) :
    x = .start partnerModel false ∧ l = dutch ∨
      x = (Spot.start partnerModel false).past db "country_id" countryModel ∧ l = { dutch with left := "code" } := by
  have hpath : ∀ p : Place, p.model = partnerModel →
      classify userCompiler.registry p.model dutch = .ok (.joinedPath countryModel "code") := by
    rintro p hp
    rw [hp]
    rfl
  have hcode : ∀ p : Place, p.model = countryModel →
      classify userCompiler.registry p.model { dutch with left := "code" } = .ok .plain := by
    rintro p hp
    rw [hp]
    rfl
  induction h with
  | @start t k l ht hl =>
    have hterm : Domain.terms? t.spell = some [.leaf dutch] := by
      rw [← Except.ok.inj ht]
      rfl
    rw [Domain.terms?_spell] at hterm
    cases hterm
    cases hl
    exact .inl ⟨rfl, rfl⟩
  | stead _ hr _ ih =>
    rcases ih with ⟨rfl, rfl⟩ | ⟨rfl, rfl⟩
    · rcases hr.of_isColumnar (hpath _ rfl) rfl nofun with ⟨_, hstep⟩ | ⟨_, _, _, hstep⟩ <;> cases hstep
    · rcases hr.of_isColumnar (hcode _ rfl) rfl nofun with ⟨_, hstep⟩ | ⟨_, _, hkind, _⟩
      · cases hstep
      · cases hkind
  | past _ hr ih =>
    rcases ih with ⟨rfl, rfl⟩ | ⟨rfl, rfl⟩
    · rcases hr.of_isColumnar (hpath _ rfl) rfl nofun with ⟨_, hstep⟩ | ⟨_, _, hkind, hstep⟩
      · cases hstep
      · cases hkind
        obtain ⟨rfl, rfl, rfl⟩ := Step.followTo_inj hstep
        exact .inr ⟨rfl, rfl⟩
    · rcases hr.of_isColumnar (hcode _ rfl) rfl nofun with ⟨_, hstep⟩ | ⟨_, _, hkind, _⟩
      · cases hstep
      · cases hkind
  | behind _ hs _ _ ih =>
    rcases ih with ⟨rfl, rfl⟩ | ⟨rfl, rfl⟩
    · cases hs.not_isColumnar (hpath _ rfl)
    · cases hs.not_isColumnar (hcode _ rfl)

/-- The condition that a country has the code. -/
def codeCondition : Cond := .group (.compare (.column ⟨"country", "code"⟩) .eq (.text "NL") false)

theorem endpoint_code : Endpoint (userCompiler.apart "partner" "country_id").registry userCompiler.context countryModel
    ⟨"code", .eq, .value (.str "NL")⟩ codeCondition where
  plain := rfl
  op := nofun
  listed := nofun
  condition := rfl

theorem flips_dutch : Flips threePartners userCompiler partnerModel [.leaf dutch] "partner" "country_id" where
  valid := valid_users
  joins := joinsThrough_country
  active := rfl
  root := ⟨"partner", rfl⟩
  keys := hasKeys_threePartners
  impartial :=
    { search := fun _ _ _ _ _ _ _ _ _ h => nomatch h
      names := fun _ _ _ _ _ _ _ _ h => nomatch h
      references := fun _ _ _ _ _ _ _ h => nomatch h
      parentPaths := fun _ _ _ _ _ _ h => nomatch h
      hook := fun _ _ _ _ _ _ _ _ h => nomatch h }
  chains := .of_speltApart ⟨"partner", rfl⟩ fun _ => speltApart_any
  chainsApart := by
    refine .of_speltApart (Registry.has_apart ⟨"partner", rfl⟩) fun root hroot => ?_
    obtain ⟨root', rfl, hhas⟩ := Registry.has_of_apart hroot
    rw [Model.apart_table]
    exact (speltApart_any hhas).apart
  crosses := by
    intro x l target rest right hl hcross hright
    rcases comes_dutch hl with ⟨rfl, rfl⟩ | ⟨rfl, rfl⟩
    · have hkind : classify userCompiler.registry partnerModel dutch = .ok (.joinedPath countryModel "code") := rfl
      cases hkind.symm.trans hcross.kind
      cases hright
      refine ⟨nofun, .inr ⟨rfl, ?_⟩, nofun⟩
      -- Null does not equal a code.
      rintro q ⟨n, hq⟩
      rw [endpoint_code.eq_of_builds rfl rfl hq]
      rfl
    · have hkind : classify userCompiler.registry countryModel { dutch with left := "code" } = .ok .plain := rfl
      cases hkind.symm.trans hcross.kind

/-- The query of a domain is compiled and selects the records with the ids. -/
def SelectsIds (db : Database V) (c : Compiler) (name : String) (d : Domain) (ids : List (Option V)) : Prop :=
  ∃ q t, (c.query 6 name d).Gives {} q t ∧ db.engine.rows q.ids = ids

theorem selectsIds_of_run {name : String} {ids : List (Option V)}
    (h : ((c.query 6 name d).run {}).1.toOption.map (fun q => db.engine.rows q.ids) = some ids) :
    SelectsIds db c name d ids := by
  rcases hrun : (c.query 6 name d).run {} with ⟨stop | q, t⟩ <;> rw [hrun] at h
  · cases h
  · exact ⟨q, t, hrun, Option.some.inj h⟩

/-- The partner from the Netherlands, found through the join and by the search. -/
theorem selects_apart_dutch :
    Flips threePartners userCompiler partnerModel [.leaf dutch] "partner" "country_id" ∧
      ∃ q t q' t', (userCompiler.query 6 "partner" [.leaf dutch]).Gives {} q t ∧
        ((userCompiler.apart "partner" "country_id").query 6 "partner" [.leaf dutch]).Gives {} q' t' ∧
        threePartners.engine.rows q.ids = [some (.number 1)] ∧ SelectsSame threePartners q q' := by
  have hjoined : SelectsIds threePartners userCompiler "partner" [.leaf dutch] [some (.number 1)] :=
    selectsIds_of_run (by decide +kernel)
  have hapart : SelectsIds threePartners (userCompiler.apart "partner" "country_id") "partner" [.leaf dutch]
      [some (.number 1)] := selectsIds_of_run (by decide +kernel)
  obtain ⟨q, t, hq, hids⟩ := hjoined
  obtain ⟨q', t', hq', -⟩ := hapart
  exact ⟨flips_dutch, q, t, q', t', hq, hq', hids, selects_apart flips_dutch hq hq'⟩

/-- The partners whose country has no code: with the join, the partner without a country is among them. Nor do the
    encodings agree where the search is left out, or where a negation is kept and the code or the country is missing. -/
theorem encodings_differ :
    let c := userCompiler
    let c' := c.apart "partner" "country_id"
    let db := threePartners
    let coded : Operator → Json → Domain := fun op v => [.leaf ⟨"country_id.code", op, .value v⟩]
    let one := some (Datum.number 1)
    let two := some (Datum.number 2)
    let three := some (Datum.number 3)
    c.registry.Valid ∧ c.registry.JoinsThrough "partner" "country_id" ∧ c.context.activeTest = false ∧
      db.HasKeys c.registry ∧
      (∀ a ∈ db.records "partner", a "country_id" = none ∨
        ∃ b ∈ db.records "country", db.base.equals (a "country_id") (b "id") = true) ∧
      (∃ q t q' t', (c.query 6 "partner" (coded .eq (.bool false))).Gives {} q t ∧
        (c'.query 6 "partner" (coded .eq (.bool false))).Gives {} q' t' ∧ ¬∀ a, db.Selects q a ↔ db.Selects q' a) ∧
      (SelectsIds db c "partner" (coded .eq (.bool false)) [two, three] ∧
        SelectsIds db c' "partner" (coded .eq (.bool false)) [three]) ∧
      (SelectsIds db c "partner" (coded .within (.bool false)) [two, three] ∧
        SelectsIds db c' "partner" (coded .within (.bool false)) []) ∧
      (SelectsIds db c "partner" (.not :: coded .eqLike (.str "NL")) [] ∧
        SelectsIds db c' "partner" (.not :: coded .eqLike (.str "NL")) [three]) ∧
      SelectsIds db c "partner" (.not :: coded .eqLike (.str "BE")) [one] ∧
        SelectsIds db c' "partner" (.not :: coded .eqLike (.str "BE")) [one, two, three] := by
  intro c c' db coded one two three
  have hjoined : SelectsIds db c "partner" (coded .eq (.bool false)) [two, three] :=
    selectsIds_of_run (by decide +kernel)
  have hapart : SelectsIds db c' "partner" (coded .eq (.bool false)) [three] := selectsIds_of_run (by decide +kernel)
  refine ⟨valid_users, joinsThrough_country, rfl, hasKeys_threePartners, by decide, ?_, ⟨hjoined, hapart⟩,
    ⟨selectsIds_of_run (by decide +kernel), selectsIds_of_run (by decide +kernel)⟩,
    ⟨selectsIds_of_run (by decide +kernel), selectsIds_of_run (by decide +kernel)⟩,
    selectsIds_of_run (by decide +kernel), selectsIds_of_run (by decide +kernel)⟩
  obtain ⟨q, t, hq, hids⟩ := hjoined
  obtain ⟨q', t', hq', hids'⟩ := hapart
  refine ⟨q, t, q', t', hq, hq', fun hsame => ?_⟩
  have hselects : SelectsSame db q q' := ⟨query_window hq, query_window hq', hsame⟩
  -- The second partner is selected through the join alone.
  have hmem : two ∈ db.engine.rows q.ids ↔ two ∈ db.engine.rows q'.ids := hselects.subselect "id" two
  rw [hids, hids'] at hmem
  exact absurd (hmem.mp List.mem_cons_self) (by decide)

end RecordFilter.Compile
