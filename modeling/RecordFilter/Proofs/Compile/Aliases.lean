import RecordFilter.Proofs.Compile.Frames

/-! Aliases of joined tables. A table is joined once for each alias, and the alias of a table is spelled from
    the relations that lead to it. Where no two chains of relations that a compilation follows are spelled alike, the
    alias under which a leaf is read stands for the table of the model that it is read on; where two are, it may stand
    for another table. -/

namespace RecordFilter
open Sql

/-- The table that an alias stands for in a query. -/
def Sql.Query.tableOf? (q : Query) (tableAlias : String) : Option String :=
  if tableAlias = q.tableAlias then some q.table
  else (q.joins.find? (·.tableAlias == tableAlias)).map (·.targetTable)

namespace Compile

/-! ### Chains of relations -/

/-- A relation that is followed by a join: the link of a delegation to its parent, or a joined many2one field. -/
inductive Traverses (r : Registry) (m : Model) (link : String) (target : Model) : Prop
  | delegation {parent} : (parent, link) ∈ m.inherits.entries → r.model? parent = some target →
      Traverses r m link target
  | joined {f} : m.field? link = some f → f.type = .many2one → f.autoJoin = true → r.comodel f = .ok target →
      Traverses r m link target

/-- A chain of relations from a model to another. -/
inductive Leads (r : Registry) : Model → List String → Model → Prop
  | here (m) : Leads r m [] m
  | through {m link mid links target} : Traverses r m link mid → Leads r mid links target →
      Leads r m (link :: links) target

/-- The alias at the end of a chain that starts at a table with an alias. -/
def aliasAlong (tableAlias : String) (links : List String) : String := links.foldl makeAlias tableAlias

section
variable {r : Registry} {m mid target : Model} {link : String} {links : List String}

theorem Traverses.has (h : Traverses r m link target) : r.Has target := by
  cases h with
  | @delegation parent _ hparent => exact ⟨parent, hparent⟩
  | joined _ _ _ hcomodel => exact Registry.has_of_comodel hcomodel

theorem Leads.has (h : Leads r m links target) (hm : r.Has m) : r.Has target := by
  induction h with
  | here => exact hm
  | through ht _ ih => exact ih ht.has

theorem Leads.snoc (h : Leads r m links mid) (ht : Traverses r mid link target) :
    Leads r m (links ++ [link]) target := by
  induction h with
  | here m => exact .through ht (.here _)
  | through hfirst _ ih => exact .through hfirst (ih ht)

/-- The last relation of a chain. -/
theorem Leads.exists_last (h : Leads r m (links ++ [link]) target) :
    ∃ mid, Leads r m links mid ∧ Traverses r mid link target := by
  induction links generalizing m with
  | nil =>
    cases h with
    | through ht hrest =>
      cases hrest
      exact ⟨m, .here m, ht⟩
  | cons first links ih =>
    cases h with
    | through ht hrest =>
      obtain ⟨mid, hleads, hlast⟩ := ih hrest
      exact ⟨mid, .through ht hleads, hlast⟩

theorem aliasAlong_snoc (tableAlias : String) (links : List String) (link : String) :
    aliasAlong tableAlias (links ++ [link]) = makeAlias (aliasAlong tableAlias links) link := by
  rw [aliasAlong, List.foldl_append]
  rfl

/-- The join at the end of a chain, through its last relation. -/
def joinAlong (tableAlias : String) (links : List String) (link : String) (target : Model) : Join :=
  Query.joinThrough (aliasAlong tableAlias links) link target.table "id" link

theorem joinAlong_tableAlias (tableAlias : String) (links : List String) (link : String) (target : Model) :
    (joinAlong tableAlias links link target).tableAlias = aliasAlong tableAlias (links ++ [link]) :=
  (aliasAlong_snoc tableAlias links link).symm

theorem traverses_of_inherited {l : Leaf} (h : classify r m l = .ok (.inherited target link)) :
    Traverses r m link target := by
  cases classify_ok h with
  | inherited hresolve =>
    obtain ⟨parent, hmem, hparent⟩ := Registry.resolve?_inherited hresolve
    exact .delegation hmem hparent

theorem traverses_of_joined {l : Leaf} {rest : String} (h : classify r m l = .ok (.joinedPath target rest)) :
    Traverses r m l.path.1 target := by
  cases classify_ok h with
  | joinedPath hf hcomodel htype hauto => exact .joined hf htype hauto hcomodel

end

/-! ### Steps -/

section
variable {s : Setting} {build : QueryBuilder} {l : Leaf} {p : Place} {m : Model} {tableAlias : String}

/-- What a leaf at a place becomes is read there, or past a relation of the place's model that is joined. -/
def Step.Near (r : Registry) (p : Place) : Step → Prop
  | .emit _ => True
  | .requeue items => ∀ w ∈ items, w.place = p
  | .follow join item => ∃ link target, Traverses r p.model link target ∧
      join = Query.joinThrough p.tableAlias link target.table "id" link ∧ item.place = ⟨target, join.tableAlias⟩

theorem Reduces.near {step : Step} (h : Reduces s build l p step) : step.Near s.registry p := by
  have leaf : ∀ l', (Step.leaf l' p).Near s.registry p := fun l' w hw => by rw [List.mem_singleton.mp hw]
  have domain : ∀ e, (Step.requeue (Work.ofDomain p e)).Near s.registry p := fun e w hw => by
    obtain ⟨token, -, rfl⟩ := List.mem_map.mp hw
    rfl
  cases h with
  | inherited hk => exact ⟨_, _, traverses_of_inherited hk, rfl, rfl⟩
  | joined hk => exact ⟨_, _, traverses_of_joined hk, rfl, rfl⟩
  | hook => exact domain _
  | hierarchy => exact domain _
  | heldLines => exact domain _
  | holds => trivial
  | noLines => trivial
  | linkedFound => trivial
  | linked => trivial
  | plain => trivial
  | translated => trivial
  | _ => exact leaf _

/-- A place that a compilation on `m` gets to: where it starts, or the end of a chain whose alias is in the query. -/
inductive Reached (r : Registry) (m : Model) (tableAlias : String) (q : Query) : Place → Prop
  | start : Reached r m tableAlias q ⟨m, tableAlias⟩
  | along {links mid link target} : Leads r m links mid → Traverses r mid link target →
      q.hasAlias (aliasAlong tableAlias (links ++ [link])) →
      Reached r m tableAlias q ⟨target, aliasAlong tableAlias (links ++ [link])⟩

/-- Every join of the query is that at the end of a chain. -/
def JoinsAlong (r : Registry) (m : Model) (tableAlias : String) (q : Query) : Prop :=
  ∀ j ∈ q.joins, ∃ links mid link target, Leads r m links mid ∧ Traverses r mid link target ∧
    j = joinAlong tableAlias links link target

theorem Reached.leads {q : Query} (h : Reached s.registry m tableAlias q p) :
    ∃ links, Leads s.registry m links p.model ∧ p.tableAlias = aliasAlong tableAlias links := by
  cases h with
  | start => exact ⟨[], .here m, rfl⟩
  | along hleads ht _ => exact ⟨_, hleads.snoc ht, rfl⟩

/-- Away from the start there is a join. -/
theorem Reached.hasAlias {q : Query} (h : Reached s.registry m tableAlias q p) (hne : p.tableAlias ≠ tableAlias) :
    q.hasAlias p.tableAlias := by
  cases h with
  | start => exact absurd rfl hne
  | along _ _ hjoin => exact hjoin

theorem Reached.addJoin {q : Query} (h : Reached s.registry m tableAlias q p) (j : Join) :
    Reached s.registry m tableAlias (q.addJoin j) p := by
  cases h with
  | start => exact .start
  | along hleads ht hjoin =>
    obtain ⟨j', hj', heq⟩ := List.any_eq_true.mp hjoin
    exact .along hleads ht (List.any_eq_true.mpr ⟨j', (Query.Extends.addJoin q j).joins.subset hj', heq⟩)

theorem hasAlias_addJoin (q : Query) (j : Join) : (q.addJoin j).hasAlias j.tableAlias := by
  unfold Query.addJoin
  split
  · assumption
  · exact List.any_eq_true.mpr ⟨j, List.mem_append_right _ (List.mem_singleton_self j), beq_self_eq_true _⟩

theorem mem_addJoin {q : Query} {j j' : Join} (h : j' ∈ (q.addJoin j).joins) : j' ∈ q.joins ∨ j' = j := by
  unfold Query.addJoin at h
  split at h
  · exact Or.inl h
  · exact (List.mem_append.mp h).imp_right List.mem_singleton.mp

namespace Machine

/-- All that waits is read at places that the compilation got to by the joins of its query. -/
structure Chained (r : Registry) (m : Model) (tableAlias : String) (machine : Machine) : Prop where
  work : ∀ w ∈ machine.work, Reached r m tableAlias machine.query w.place
  joins : JoinsAlong r m tableAlias machine.query

theorem take_chained {q : Query} {rest : List Work} {results : List Cond} {step : Step}
    (hp : Reached s.registry m tableAlias q p) (hrest : ∀ w ∈ rest, Reached s.registry m tableAlias q w.place)
    (hjoins : JoinsAlong s.registry m tableAlias q) (h : step.Near s.registry p) :
    (take q results rest step).Chained s.registry m tableAlias := by
  cases step with
  | emit c => exact ⟨hrest, hjoins⟩
  | requeue items =>
    refine ⟨fun w hw => ?_, hjoins⟩
    rcases List.mem_append.mp hw with hw | hw
    · exact h w (List.mem_reverse.mp hw) ▸ hp
    · exact hrest w hw
  | follow join item =>
    obtain ⟨link, target, ht, hjoin, hplace⟩ := h
    obtain ⟨links, hleads, halias⟩ := hp.leads
    obtain rfl : join = joinAlong tableAlias links link target := by rw [hjoin, halias, joinAlong]
    refine ⟨fun w hw => ?_, fun j hj => ?_⟩
    · rcases List.mem_cons.mp hw with rfl | hw
      · rw [hplace, joinAlong_tableAlias]
        exact .along hleads ht (joinAlong_tableAlias tableAlias links link target ▸ hasAlias_addJoin q _)
      · exact (hrest w hw).addJoin _
    · rcases mem_addJoin hj with hj | rfl
      · exact hjoins j hj
      · exact ⟨links, _, link, target, hleads, ht, rfl⟩

theorem step_chained {item : Work} {rest : List Work} {results : List Cond} {q : Query}
    (h : Chained s.registry m tableAlias ⟨item :: rest, results, q⟩) {t t' : Trace} {next : Machine}
    (hstep : (step s build item rest results q).Gives t next t') : next.Chained s.registry m tableAlias := by
  have hrest : ∀ w ∈ rest, Reached s.registry m tableAlias q w.place := fun w hw =>
    h.work w (List.mem_cons_of_mem _ hw)
  unfold step at hstep
  split at hstep
  · cases hstep
    exact ⟨hrest, h.joins⟩
  · cases hstep
    exact ⟨hrest, h.joins⟩
  · cases hstep
    exact ⟨hrest, h.joins⟩
  · cases hstep
    exact ⟨hrest, h.joins⟩
  · cases hstep
    exact ⟨hrest, h.joins⟩
  · obtain ⟨next', t₁, hreduce, hpure⟩ := Run.gives_bind.mp hstep
    cases hpure
    exact take_chained (h.work item List.mem_cons_self) hrest h.joins (reduce_meets.gives hreduce).near
  · cases hstep

theorem Reaches.chained {machine next : Machine} (hreach : Reaches s build machine next)
    (h : machine.Chained s.registry m tableAlias) : next.Chained s.registry m tableAlias := by
  induction hreach with
  | refl machine => exact h
  | step hstep _ ih => exact ih (step_chained h hstep)

theorem start_chained {q : Query} (hq : q.joins = []) (d : Domain) :
    (start ⟨m, tableAlias⟩ d q).Chained s.registry m tableAlias := by
  refine ⟨fun w hw => ?_, fun j hj => ?_⟩
  · obtain ⟨token, -, rfl⟩ := List.mem_map.mp (List.mem_reverse.mp hw)
    exact .start
  · have hj : j ∈ q.joins := hj
    rw [hq] at hj
    cases hj

end Machine

/-! ### The chains that are followed -/

/-- The work that comes up in the compilation of a domain, with the chain of relations that it is read past: the tokens
    of the domain past none, what a leaf turns into past the chain of the leaf, and what is read past a join past one
    relation more. -/
inductive Pursues (s : Setting) (build : QueryBuilder) (p : Place) (d : Domain) : List String → Work → Prop
  | own {w} : w ∈ Work.ofDomain p d → Pursues s build p d [] w
  | turned {links l p' t items t' w} : Pursues s build p d links ⟨.leaf l, p'⟩ →
      (reduce s build l p').Gives t (.requeue items) t' → w ∈ items → Pursues s build p d links w
  | past {links l p' t join item t'} : Pursues s build p d links ⟨.leaf l, p'⟩ →
      (reduce s build l p').Gives t (.follow join item) t' → Pursues s build p d (links ++ [join.sourceColumn]) item

/-- The chains of relations that a compilation follows, each with the model at its end. -/
def Pursued (s : Setting) (build : QueryBuilder) (p : Place) (d : Domain) (links : List String) (target : Model) : Prop :=
  ∃ w, Pursues s build p d links w ∧ w.place.model = target

section
variable {d : Domain} {links : List String} {w : Work} {target : Model}

theorem Pursues.leads (h : Pursues s build ⟨m, tableAlias⟩ d links w) :
    Leads s.registry m links w.place.model ∧ w.place.tableAlias = aliasAlong tableAlias links := by
  induction h with
  | own hw =>
    obtain ⟨token, -, rfl⟩ := List.mem_map.mp hw
    exact ⟨.here m, rfl⟩
  | turned _ hgives hw ih => exact (reduce_meets.gives hgives).near _ hw ▸ ih
  | past _ hgives ih =>
    obtain ⟨link, target, ht, rfl, hplace⟩ := (reduce_meets.gives hgives).near
    rw [hplace]
    exact ⟨ih.1.snoc ht, by rw [aliasAlong_snoc, ← ih.2]; rfl⟩

theorem Pursued.leads (h : Pursued s build ⟨m, tableAlias⟩ d links target) : Leads s.registry m links target := by
  obtain ⟨w, hw, rfl⟩ := h
  exact hw.leads.1

/-- All chains start with the compilation. -/
theorem Pursues.pursued_start (h : Pursues s build ⟨m, tableAlias⟩ d links w) :
    Pursued s build ⟨m, tableAlias⟩ d [] m := by
  induction h with
  | own hw =>
    obtain ⟨token, -, rfl⟩ := List.mem_map.mp hw
    exact ⟨_, .own hw, rfl⟩
  | turned _ _ _ ih => exact ih
  | past _ _ ih => exact ih

/-- The join is that at the end of a chain that is followed. -/
def JoinsPursued (s : Setting) (build : QueryBuilder) (p : Place) (d : Domain) (j : Join) : Prop :=
  ∃ links link target, Pursued s build p d (links ++ [link]) target ∧ j = joinAlong p.tableAlias links link target

/-- What waits in a machine is read past chains that are followed, and its joins are those at the ends of such chains. -/
theorem inductive_pursues (s : Setting) (build : QueryBuilder) (m : Model) (tableAlias : String) (d : Domain) :
    Inductive s build (fun w => ∃ links, Pursues s build ⟨m, tableAlias⟩ d links w) (fun _ => True)
      fun q => ∀ j ∈ q.joins, JoinsPursued s build ⟨m, tableAlias⟩ d j where
  literal _ := trivial
  and _ _ := trivial
  or _ _ := trivial
  not _ := trivial
  reduce {l p t t' step} hl hgives := by
    obtain ⟨links, hl⟩ := hl
    cases step with
    | emit => trivial
    | requeue items => exact fun w hw => ⟨links, .turned hl hgives hw⟩
    | follow join item =>
      have hpast : Pursues s build ⟨m, tableAlias⟩ d (links ++ [join.sourceColumn]) item := .past hl hgives
      obtain ⟨link, target, -, rfl, hplace⟩ := (reduce_meets.gives hgives).near
      refine ⟨fun q hq j hj => ?_, _, hpast⟩
      rcases mem_addJoin hj with hj | rfl
      · exact hq j hj
      · refine ⟨links, link, target, ⟨item, hpast, by rw [hplace]⟩, ?_⟩
        rw [joinAlong, ← hl.leads.2]

end

/-! ### Sound aliases -/

/-- No two of the chains are spelled alike. -/
def SpeltApart (chain : List String → Model → Prop) (tableAlias : String) : Prop :=
  ∀ ⦃links links' target target'⦄, chain links target → chain links' target' →
    aliasAlong tableAlias links = aliasAlong tableAlias links' → links = links' ∧ target.table = target'.table

theorem SpeltApart.mono {chain chain' : List String → Model → Prop} (h : SpeltApart chain tableAlias)
    (hchain : ∀ {links target}, chain' links target → chain links target) : SpeltApart chain' tableAlias :=
  fun _ _ _ _ hlinks hlinks' => h (hchain hlinks) (hchain hlinks')

/-- The alias of the place is the query's own on the model compiled, or that of a join of the query to the
    table of the place's model, through the relation that was followed to get there. -/
inductive Grounded (r : Registry) (m : Model) (q : Query) : Place → Prop
  | own : Grounded r m q ⟨m, q.tableAlias⟩
  | joined {links mid link target} : Leads r m links mid → Traverses r mid link target →
      joinAlong q.tableAlias links link target ∈ q.joins →
      Grounded r m q ⟨target, (joinAlong q.tableAlias links link target).tableAlias⟩

/-- Where no two chains that a compilation follows are spelled alike, it reads every leaf under an alias that stands for
    the table of the leaf's model, through the relation that leads there. -/
theorem reaches_grounded {q : Query} (hq : q.joins = []) (htable : q.table = m.table) {d : Domain}
    (hapart : SpeltApart (Pursued s build ⟨m, q.tableAlias⟩ d) q.tableAlias) {machine : Machine}
    (hreach : Machine.Reaches s build (Machine.start ⟨m, q.tableAlias⟩ d q) machine) :
    ∀ w ∈ machine.work, Grounded s.registry m machine.query w.place ∧
      machine.query.tableOf? w.place.tableAlias = some w.place.model.table := by
  have hchained := hreach.chained (Machine.start_chained hq d)
  have hkeeps := hreach.keeps (inductive_pursues s build m q.tableAlias d)
    ⟨fun w hw => ⟨[], .own (List.mem_reverse.mp hw)⟩, fun _ _ => trivial, fun j hj => by
      have hj : j ∈ q.joins := hj
      rw [hq] at hj
      cases hj⟩
  have hextends : q.Extends machine.query := hreach.extends
  have halias : machine.query.tableAlias = q.tableAlias := hextends.tableAlias
  have hown : machine.query.table = m.table := hextends.table.trans htable
  -- The join with the alias of a chain is that at the end of the chain.
  have unique : ∀ {links link target j}, Pursued s build ⟨m, q.tableAlias⟩ d (links ++ [link]) target →
      j ∈ machine.query.joins → j.tableAlias = aliasAlong q.tableAlias (links ++ [link]) →
      j = joinAlong q.tableAlias links link target := by
    intro links link target j hchain hj hname
    obtain ⟨links', link', target', hchain', rfl⟩ := hkeeps.query j hj
    rw [joinAlong_tableAlias] at hname
    obtain ⟨hlinks, htarget⟩ := hapart hchain' hchain hname
    obtain ⟨rfl, hlink⟩ := List.append_inj' hlinks rfl
    cases hlink
    unfold joinAlong
    rw [htarget]
  intro w hw
  obtain ⟨links, hpursues⟩ := hkeeps.work w hw
  obtain ⟨hleads, hplace⟩ := hpursues.leads
  have hstart := hpursues.pursued_start
  have hchain : Pursued s build ⟨m, q.tableAlias⟩ d links w.place.model := ⟨w, hpursues, rfl⟩
  have hreached := hchained.work w hw
  generalize w.place = p at hreached hleads hplace hchain
  obtain ⟨target, tableAlias⟩ := p
  dsimp only at hleads hplace hchain ⊢
  subst hplace
  unfold Query.tableOf?
  rw [halias]
  rcases List.eq_nil_or_concat links with rfl | ⟨front, link, hconcat⟩
  · cases hleads
    have hempty : aliasAlong q.tableAlias [] = q.tableAlias := rfl
    rw [hempty, if_pos rfl, hown]
    exact ⟨halias ▸ .own, rfl⟩
  · obtain rfl : links = front ++ [link] := hconcat.trans (List.concat_eq_append ..)
    have hne : aliasAlong q.tableAlias (front ++ [link]) ≠ q.tableAlias := fun heq => by
      obtain ⟨hnil, -⟩ := hapart hchain hstart heq
      exact List.append_ne_nil_of_right_ne_nil _ (List.cons_ne_nil _ _) hnil
    have hjoin : machine.query.hasAlias (aliasAlong q.tableAlias (front ++ [link])) := hreached.hasAlias hne
    obtain ⟨j, hj⟩ : ∃ j, machine.query.joins.find?
        (·.tableAlias == aliasAlong q.tableAlias (front ++ [link])) = some j :=
      Option.isSome_iff_exists.mp (List.find?_isSome.mpr (List.any_eq_true.mp hjoin))
    have hname : j.tableAlias = aliasAlong q.tableAlias (front ++ [link]) := by simpa using List.find?_some hj
    have hmem := List.mem_of_find?_eq_some hj
    obtain rfl := unique hchain hmem hname
    obtain ⟨mid, hfirst, hlast⟩ := hleads.exists_last
    refine ⟨?_, by rw [if_neg hne, hj]; rfl⟩
    rw [← joinAlong_tableAlias _ _ _ target, ← halias]
    exact .joined hfirst hlast (halias ▸ hmem)

end

/-! ### Names that spell apart -/

/-- No two underscores in a row, and none at the end. -/
def EndsPlain : List Char → Prop
  | [] => True
  | [c] => c ≠ '_'
  | c :: d :: rest => ¬(c = '_' ∧ d = '_') ∧ EndsPlain (d :: rest)

instance EndsPlain.decidable : (cs : List Char) → Decidable (EndsPlain cs)
  | [] => isTrue trivial
  | [c] => inferInstanceAs (Decidable (c ≠ '_'))
  | c :: d :: rest =>
    have := EndsPlain.decidable (d :: rest)
    inferInstanceAs (Decidable (¬(c = '_' ∧ d = '_') ∧ EndsPlain (d :: rest)))

/-- The rest of an alias after a name: nothing, or two underscores and the next name. -/
def Seam (cs : List Char) : Prop := cs = [] ∨ ∃ rest, cs = '_' :: '_' :: rest

/-- The part of an alias that names a chain. -/
def spelling : List String → List Char
  | [] => []
  | link :: links => '_' :: '_' :: (link.toList ++ spelling links)

theorem seam_spelling (links : List String) : Seam (spelling links) := by
  cases links with
  | nil => exact Or.inl rfl
  | cons link links => exact Or.inr ⟨_, rfl⟩

/-- A plain name does not start like the rest after a name. -/
theorem EndsPlain.not_seam {c : Char} {cs rest : List Char} (h : EndsPlain (c :: cs)) (hrest : Seam rest) :
    ¬Seam (c :: cs ++ rest) := by
  rintro (hnil | ⟨_, heq⟩)
  · cases hnil
  · cases cs with
    | nil =>
      cases heq
      exact h rfl
    | cons d cs =>
      cases heq
      exact h.1 ⟨rfl, rfl⟩

theorem EndsPlain.tail {c : Char} {cs : List Char} (h : EndsPlain (c :: cs)) : EndsPlain cs := by
  cases cs with
  | nil => trivial
  | cons d cs => exact h.2

/-- A plain name ends where two underscores start. -/
theorem EndsPlain.append_inj {as bs rest rest' : List Char} (ha : EndsPlain as) (hb : EndsPlain bs)
    (hrest : Seam rest) (hrest' : Seam rest') (h : as ++ rest = bs ++ rest') : as = bs ∧ rest = rest' := by
  induction as generalizing bs with
  | nil =>
    cases bs with
    | nil => exact ⟨rfl, h⟩
    | cons d bs => exact absurd (h ▸ hrest) (hb.not_seam hrest')
  | cons c as ih =>
    cases bs with
    | nil => exact absurd (h.symm ▸ hrest') (ha.not_seam hrest)
    | cons d bs =>
      obtain ⟨rfl, htails⟩ := List.cons.inj h
      obtain ⟨rfl, hrests⟩ := ih ha.tail hb.tail htails
      exact ⟨rfl, hrests⟩

theorem spelling_inj {links links' : List String} (hl : ∀ link ∈ links, EndsPlain link.toList)
    (hl' : ∀ link ∈ links', EndsPlain link.toList) (h : spelling links = spelling links') : links = links' := by
  induction links generalizing links' with
  | nil =>
    cases links' with
    | nil => rfl
    | cons => cases h
  | cons link links ih =>
    cases links' with
    | nil => cases h
    | cons link' links' =>
      have hnames : link.toList ++ spelling links = link'.toList ++ spelling links' := (List.cons.inj (List.cons.inj h).2).2
      obtain ⟨hlink, hrest⟩ := EndsPlain.append_inj (hl link List.mem_cons_self) (hl' link' List.mem_cons_self)
        (seam_spelling links) (seam_spelling links') hnames
      rw [String.toList_inj.mp hlink, ih (fun l hmem => hl l (List.mem_cons_of_mem _ hmem))
        (fun l hmem => hl' l (List.mem_cons_of_mem _ hmem)) hrest]

/-- An alias that is short enough spells its chain out. -/
theorem aliasAlong_eq {tableAlias : String} {links : List String}
    (hshort : (tableAlias ++ String.ofList (spelling links)).utf8ByteSize ≤ maxAlias) :
    aliasAlong tableAlias links = tableAlias ++ String.ofList (spelling links) := by
  induction links generalizing tableAlias with
  | nil => simp [aliasAlong, spelling]
  | cons link links ih =>
    have hsplit : tableAlias ++ String.ofList (spelling (link :: links)) =
        tableAlias ++ "__" ++ link ++ String.ofList (spelling links) :=
      String.toList_inj.mp (by simp [spelling])
    rw [hsplit] at hshort ⊢
    have hlink : makeAlias tableAlias link = tableAlias ++ "__" ++ link := by
      unfold makeAlias shorten
      refine if_pos ?_
      rw [String.utf8ByteSize_append] at hshort
      omega
    show aliasAlong (makeAlias tableAlias link) links = _
    rw [hlink]
    exact ih hshort

/-- On the chains from a model, each relation leads to one model, and its name has no two underscores in a row and
    none at the end. -/
structure PlainlyNamed (r : Registry) (m : Model) : Prop where
  target : ∀ {links mid link target target'}, Leads r m links mid → Traverses r mid link target →
    Traverses r mid link target' → target = target'
  link : ∀ {links mid link target}, Leads r m links mid → Traverses r mid link target → EndsPlain link.toList

section
variable {r : Registry} {m mid target target' : Model} {links links' : List String}

theorem PlainlyNamed.past {link : String} (h : PlainlyNamed r m) (ht : Traverses r m link mid) :
    PlainlyNamed r mid :=
  ⟨fun hleads => h.target (.through ht hleads), fun hleads => h.link (.through ht hleads)⟩

/-- Chains of the same relations lead to the same model. -/
theorem Leads.target_unique (hleads : Leads r m links target) (h : PlainlyNamed r m)
    (hleads' : Leads r m links target') : target = target' := by
  induction hleads with
  | here m =>
    cases hleads' with
    | here => rfl
  | through ht _ ih =>
    cases hleads' with
    | through ht' hrest' =>
      obtain rfl := h.target (.here _) ht ht'
      exact ih (h.past ht) hrest'

theorem Leads.endsPlain (hleads : Leads r m links target) (h : PlainlyNamed r m) :
    ∀ link ∈ links, EndsPlain link.toList := by
  induction hleads with
  | here => nofun
  | through ht _ ih =>
    intro link hlink
    rcases List.mem_cons.mp hlink with rfl | hlink
    · exact h.link (.here _) ht
    · exact ih (h.past ht) link hlink

/-- With such names no two chains of a set are spelled alike, as long as none of their aliases has to be cut. -/
theorem PlainlyNamed.speltApart {chain : List String → Model → Prop} {tableAlias : String} (h : PlainlyNamed r m)
    (hchain : ∀ {links target}, chain links target → Leads r m links target)
    (hshort : ∀ {links target}, chain links target →
      (tableAlias ++ String.ofList (spelling links)).utf8ByteSize ≤ maxAlias) :
    SpeltApart chain tableAlias := by
  intro links links' target target' hlinks hlinks' halias
  have hleads := hchain hlinks
  have hleads' := hchain hlinks'
  rw [aliasAlong_eq (hshort hlinks), aliasAlong_eq (hshort hlinks')] at halias
  have hspelling : spelling links = spelling links' := by simpa using congrArg String.toList halias
  obtain rfl := spelling_inj (hleads.endsPlain h) (hleads'.endsPlain h) hspelling
  exact ⟨rfl, congrArg Model.table (hleads.target_unique h hleads')⟩

end

/-! ### Users and orders -/

/-- A user is a partner, of some country. -/
def userModel : Model :=
  ((Model.ofTable "user" "user").withField (Field.many2one "partner_id" "partner")).inheriting "partner" "partner_id"

def partnerModel : Model :=
  (Model.ofTable "partner" "partner").withField { Field.many2one "country_id" "country" with autoJoin := true }

def countryModel : Model := (Model.ofTable "country" "country").withField { name := "code", type := .char }

/-- A compiler for users, partners and countries, without a database. -/
def userCompiler : Compiler where
  registry := { models := ((Keyed.empty.insert "user" userModel).insert "partner" partnerModel).insert "country"
                  countryModel }
  context := taskCompiler.context

theorem valid_users : userCompiler.registry.Valid where
  built := .register (m := countryModel) (.register (m := partnerModel) (.register (m := userModel) .empty rfl) rfl) rfl
  validated := rfl

theorem has_users {root : Model} (h : userCompiler.registry.Has root) :
    root = userModel ∨ root = partnerModel ∨ root = countryModel := by
  obtain ⟨name, hname⟩ := h
  have hmem : (name, root) ∈ [("country", countryModel), ("partner", partnerModel), ("user", userModel)] :=
    Registry.mem_of_lookup hname
  simp only [List.mem_cons, List.not_mem_nil, or_false, Prod.mk.injEq] at hmem
  rcases hmem with ⟨-, rfl⟩ | ⟨-, rfl⟩ | ⟨-, rfl⟩
  · exact .inr (.inr rfl)
  · exact .inr (.inl rfl)
  · exact .inl rfl

theorem traverses_user {link : String} {target : Model} (h : Traverses userCompiler.registry userModel link target) :
    link = "partner_id" ∧ target = partnerModel := by
  cases h with
  | @delegation parent hmem hparent =>
    have hmem : (parent, link) ∈ [("partner", "partner_id")] := hmem
    cases List.mem_singleton.mp hmem
    cases hparent
    exact ⟨rfl, rfl⟩
  | @joined f hf _ hauto _ =>
    have hmem : (link, f) ∈ [("id", { name := "id", type := .integer }), ("partner_id", Field.many2one "partner_id" "partner")] :=
      Registry.mem_of_lookup hf
    simp only [List.mem_cons, List.not_mem_nil, or_false, Prod.mk.injEq] at hmem
    rcases hmem with ⟨-, rfl⟩ | ⟨-, rfl⟩ <;> cases hauto

theorem traverses_partner {link : String} {target : Model}
    (h : Traverses userCompiler.registry partnerModel link target) : link = "country_id" ∧ target = countryModel := by
  cases h with
  | delegation hmem _ => cases hmem
  | @joined f hf _ hauto hcomodel =>
    have hmem : (link, f) ∈ [("country_id", { Field.many2one "country_id" "country" with autoJoin := true }),
        ("id", { name := "id", type := .integer })] := Registry.mem_of_lookup hf
    simp only [List.mem_cons, List.not_mem_nil, or_false, Prod.mk.injEq] at hmem
    rcases hmem with ⟨rfl, rfl⟩ | ⟨-, rfl⟩
    · cases hcomodel
      exact ⟨rfl, rfl⟩
    · cases hauto

theorem not_traverses_country {link : String} {target : Model} :
    ¬Traverses userCompiler.registry countryModel link target := by
  rintro (⟨hmem, -⟩ | ⟨hf, -, hauto, -⟩)
  · cases hmem
  · rename_i f
    have hmem : (link, f) ∈ [("code", { name := "code", type := .char }), ("id", { name := "id", type := .integer })] :=
      Registry.mem_of_lookup hf
    simp only [List.mem_cons, List.not_mem_nil, or_false, Prod.mk.injEq] at hmem
    rcases hmem with ⟨-, rfl⟩ | ⟨-, rfl⟩ <;> cases hauto

/-- The chains from a user lead to the partner, and on to the country. -/
theorem leads_user {links : List String} {target : Model} (h : Leads userCompiler.registry userModel links target) :
    (links, target) ∈ [([], userModel), (["partner_id"], partnerModel), (["partner_id", "country_id"], countryModel)] := by
  cases h with
  | here => simp
  | through ht hrest =>
    obtain ⟨rfl, rfl⟩ := traverses_user ht
    cases hrest with
    | here => simp
    | through ht hrest =>
      obtain ⟨rfl, rfl⟩ := traverses_partner ht
      cases hrest with
      | here => simp
      | through ht _ => exact absurd ht not_traverses_country

theorem speltApart_users : SpeltApart (Leads userCompiler.registry userModel) "user" := by
  -- The one relation that leads on from the end of each chain.
  have next : ∀ {links mid link target}, Leads userCompiler.registry userModel links mid →
      Traverses userCompiler.registry mid link target →
      (mid = userModel ∧ link = "partner_id" ∧ target = partnerModel) ∨
        (mid = partnerModel ∧ link = "country_id" ∧ target = countryModel) := by
    intro links mid link target h ht
    have hmem := leads_user h
    simp only [List.mem_cons, List.not_mem_nil, or_false, Prod.mk.injEq] at hmem
    rcases hmem with ⟨-, rfl⟩ | ⟨-, rfl⟩ | ⟨-, rfl⟩
    · exact Or.inl ⟨rfl, traverses_user ht⟩
    · exact Or.inr ⟨rfl, traverses_partner ht⟩
    · exact absurd ht not_traverses_country
  have hplain : PlainlyNamed userCompiler.registry userModel := by
    refine ⟨fun h ht ht' => ?_, fun h ht => ?_⟩
    · rcases next h ht with ⟨rfl, -, rfl⟩ | ⟨rfl, -, rfl⟩
      · exact (traverses_user ht').2.symm
      · exact (traverses_partner ht').2.symm
    · rcases next h ht with ⟨-, rfl, -⟩ | ⟨-, rfl, -⟩ <;> decide
  refine hplain.speltApart id fun h => ?_
  have hmem := leads_user h
  simp only [List.mem_cons, List.not_mem_nil, or_false, Prod.mk.injEq] at hmem
  rcases hmem with ⟨rfl, -⟩ | ⟨rfl, -⟩ | ⟨rfl, -⟩ <;> decide

/-- The users in a country, two joins away. -/
theorem reaches_grounded_users :
    let d : Domain := [.leaf ⟨"country_id.code", .eq, .value (.str "NL")⟩]
    let q := Query.ofTable "user"
    let s := userCompiler.setting userCompiler.context
    s.registry.Valid ∧ q.joins = [] ∧ q.table = userModel.table ∧
      SpeltApart (Pursued s (userCompiler.queryIn 8) ⟨userModel, q.tableAlias⟩ d) q.tableAlias ∧
      ∃ machine : Machine,
        Machine.Reaches s (userCompiler.queryIn 8) (Machine.start ⟨userModel, q.tableAlias⟩ d q) machine ∧
        machine.work.map (·.place.tableAlias) = ["user__partner_id__country_id"] ∧
        ∀ w ∈ machine.work, Grounded s.registry userModel machine.query w.place ∧
          machine.query.tableOf? w.place.tableAlias = some w.place.model.table := by
  intro d q s
  have hreach : ∃ machine : Machine,
      Machine.Reaches s (userCompiler.queryIn 8) (Machine.start ⟨userModel, q.tableAlias⟩ d q) machine ∧
      machine.work.map (·.place.tableAlias) = ["user__partner_id__country_id"] :=
    ⟨_, .step (t := {}) rfl (.step (t := {}) rfl (.refl _)), rfl⟩
  obtain ⟨machine, hreach, hwork⟩ := hreach
  have hapart : SpeltApart (Pursued s (userCompiler.queryIn 8) ⟨userModel, q.tableAlias⟩ d) q.tableAlias :=
    speltApart_users.mono (·.leads)
  exact ⟨valid_users, rfl, rfl, hapart, machine, hreach, hwork, reaches_grounded rfl rfl hapart hreach⟩

/-- An order has a line with an item; its field with the longer name leads to the stock. -/
def orderModel : Model :=
  ((Model.ofTable "order" "order").withField { Field.many2one "line" "line" with autoJoin := true }).withField
    { Field.many2one "line__item" "stock" with autoJoin := true }

def lineModel : Model :=
  (Model.ofTable "line" "line").withField { Field.many2one "item" "item" with autoJoin := true }

def itemModel : Model := (Model.ofTable "item" "item").withField { name := "name", type := .char }

def stockModel : Model := (Model.ofTable "stock" "stock").withField { name := "name", type := .char }

/-- A compiler for orders, without a database. -/
def orderCompiler : Compiler where
  registry := { models := (((Keyed.empty.insert "order" orderModel).insert "line" lineModel).insert "item"
                  itemModel).insert "stock" stockModel }
  context := taskCompiler.context

theorem valid_orders : orderCompiler.registry.Valid where
  built := .register (m := stockModel) (.register (m := itemModel) (.register (m := lineModel)
    (.register (m := orderModel) .empty rfl) rfl) rfl) rfl
  validated := rfl

/-- Two chains of orders are spelled alike, and the second one is read from the table of the first: the item of the
    line under the alias of the stock. -/
theorem stock_read_for_item :
    let d : Domain := [.leaf ⟨"line.item.name", .eq, .value (.str "p")⟩,
      .leaf ⟨"line__item.name", .eq, .value (.str "q")⟩]
    let q := Query.ofTable "order"
    let s := orderCompiler.setting orderCompiler.context
    s.registry.Valid ∧ s.registry.model "order" = .ok orderModel ∧
      (∃ e, Domain.distributeNot d = .ok e ∧
        ¬SpeltApart (Pursued s (orderCompiler.queryIn 8) ⟨orderModel, q.tableAlias⟩ e) q.tableAlias ∧
        ∃ machine : Machine,
          Machine.Reaches s (orderCompiler.queryIn 8) (Machine.start ⟨orderModel, q.tableAlias⟩ e q) machine ∧
          ∃ w ∈ machine.work, w.place.model.table = "item" ∧
            machine.query.tableOf? w.place.tableAlias = some "stock") ∧
      ∃ q t, (orderCompiler.query 9 "order" d).Gives {} q t ∧ q.joins.map (·.targetTable) = ["stock", "line"] := by
  intro d q s
  refine ⟨valid_orders, rfl, ⟨.and :: d, rfl, fun hapart => ?_, ?_⟩, ?_⟩
  · let pursued := Pursues s (orderCompiler.queryIn 8) ⟨orderModel, "order"⟩ (.and :: d)
    have hfirst : pursued [] ⟨.leaf ⟨"line.item.name", .eq, .value (.str "p")⟩, ⟨orderModel, "order"⟩⟩ :=
      .own (List.mem_cons_of_mem _ List.mem_cons_self)
    have hline : pursued ["line"] ⟨.leaf ⟨"item.name", .eq, .value (.str "p")⟩, ⟨lineModel, "order__line"⟩⟩ :=
      .past (t := {}) hfirst rfl
    have hitem : pursued ["line", "item"] ⟨.leaf ⟨"name", .eq, .value (.str "p")⟩, ⟨itemModel, "order__line__item"⟩⟩ :=
      .past (t := {}) hline rfl
    have hsecond : pursued [] ⟨.leaf ⟨"line__item.name", .eq, .value (.str "q")⟩, ⟨orderModel, "order"⟩⟩ :=
      .own (List.mem_cons_of_mem _ (List.mem_cons_of_mem _ List.mem_cons_self))
    have hstock : pursued ["line__item"] ⟨.leaf ⟨"name", .eq, .value (.str "q")⟩, ⟨stockModel, "order__line__item"⟩⟩ :=
      .past (t := {}) hsecond rfl
    have hsame := hapart ⟨_, hitem, rfl⟩ ⟨_, hstock, rfl⟩ (by decide)
    exact absurd hsame.1 (by decide)
  · exact ⟨_, .step (t := {}) rfl (.step (t := {}) rfl (.step (t := {}) rfl (.step (t := {}) rfl (.refl _)))),
      _, List.mem_cons_self, rfl, rfl⟩
  · have hok : (((orderCompiler.query 9 "order" d).run {}).1.map fun q => q.joins.map (·.targetTable)).toOption =
        some ["stock", "line"] := by decide +kernel
    rcases h : (orderCompiler.query 9 "order" d).run {} with ⟨stop | q, t⟩ <;> rw [h] at hok
    · cases hok
    · exact ⟨q, t, h, Option.some.inj hok⟩

end Compile
end RecordFilter
