import RecordFilter.Proofs.Compile.Settling

/-! What a compilation with one database says of the compilation with another, or with more fuel. Where a run succeeds, it
    has had an answer to each of its calls and has not run out of fuel, and nothing else of the database or of the fuel
    counts; so it goes the same way with every database that gives the same answers, and with all the fuel beyond.
    Without a database no call is answered. So what compiles without a database compiles to the same query with every
    database, and none is asked for anything. -/

namespace RecordFilter
open Sql

/-- Whatever the database `b` answers, the database `b'` answers alike, and a name is looked up by the same call. -/
structure Backend.Covers (b' b : Backend) : Prop where
  search {history m d options ids} : b.search history m d options = .ok ids → b'.search history m d options = .ok ids
  names {history m name op options ids} : b.findByName history m name op options = .ok ids →
    b'.findByName history m name op options = .ok ids ∧ b'.nameCall m name op options = b.nameCall m name op options
  references {history m ids field owners} : b.references history m ids field = .ok owners →
    b'.references history m ids field = .ok owners
  parentPaths {history m ids paths} : b.parentPaths history m ids = .ok paths → b'.parentPaths history m ids = .ok paths

theorem Backend.covers_refl (b : Backend) : b.Covers b where
  search := id
  names h := ⟨h, rfl⟩
  references := id
  parentPaths := id

/-- Every database answers all that none at all answers. -/
theorem Backend.covers_offline (b : Backend) : b.Covers .offline where
  search := nofun
  names := nofun
  references := nofun
  parentPaths := nofun

namespace Call

/-- The call asks the database, and not a search hook. -/
def asksDatabase : Call → Bool
  | .search _ _ _ | .names _ _ _ _ | .references _ _ _ | .parentPaths _ _ => true
  | .hook _ _ _ _ => false

/-- If the call asks the database, there is an answer to it. -/
def AnsweredBy (b : Backend) : Call → Prop
  | .search model d options => ∃ history m ids, m.name = model ∧ b.search history m d options = .ok ids
  | .names model name op options => ∃ history m ids, m.name = model ∧ b.findByName history m name op options = .ok ids
  | .references model ids field => ∃ history m owners, m.name = model ∧ b.references history m ids field = .ok owners
  | .parentPaths model ids => ∃ history m paths, m.name = model ∧ b.parentPaths history m ids = .ok paths
  | .hook _ _ _ _ => True

/-- A name that is looked up is answered by the database's own search for names, or by that of the name field. -/
theorem AnsweredBy.nameCall {b : Backend} {history : List Call} {m : Model} {name : Json} {op : Operator}
    {options : SearchOptions} {ids : List Int} (h : b.findByName history m name op options = .ok ids) :
    (b.nameCall m name op options).AnsweredBy b := by
  unfold Backend.nameCall
  split
  · exact ⟨history, m, ids, rfl, h⟩
  · rename_i hnone
    exact ⟨history, m, ids, rfl, Backend.findByName_of_none hnone history ▸ h⟩

/-- Without a database only search hooks answer. -/
theorem AnsweredBy.of_offline {call : Call} (h : call.AnsweredBy .offline) : call.asksDatabase = false := by
  cases call with
  | search => obtain ⟨_, _, _, -, h⟩ := h; cases h
  | names => obtain ⟨_, _, _, -, h⟩ := h; cases h
  | references => obtain ⟨_, _, _, -, h⟩ := h; cases h
  | parentPaths => obtain ⟨_, _, _, -, h⟩ := h; cases h
  | hook => rfl

end Call

/-- What was called after `t` has answers. -/
def Trace.AnsweredBy (b : Backend) (t t' : Trace) : Prop :=
  ∃ calls, t'.calls = t.calls ++ calls ∧ ∀ call ∈ calls, call.AnsweredBy b

namespace Trace.AnsweredBy
variable {b : Backend} {t t' t'' : Trace}

theorem of_calls_eq (h : t'.calls = t.calls) : t.AnsweredBy b t' := ⟨[], by rw [h, List.append_nil], nofun⟩

theorem trans (h : t.AnsweredBy b t') (h' : t'.AnsweredBy b t'') : t.AnsweredBy b t'' := by
  obtain ⟨calls, hcalls, hall⟩ := h
  obtain ⟨calls', hcalls', hall'⟩ := h'
  refine ⟨calls ++ calls', by rw [hcalls', hcalls, List.append_assoc], fun call hcall => ?_⟩
  exact (List.mem_append.mp hcall).elim (hall call) (hall' call)

end Trace.AnsweredBy

/-- No call after `t` asks the database. -/
def Trace.NotAsking (t t' : Trace) : Prop :=
  ∃ calls, t'.calls = t.calls ++ calls ∧ ∀ call ∈ calls, call.asksDatabase = false

theorem Trace.AnsweredBy.notAsking {t t' : Trace} (h : t.AnsweredBy .offline t') : t.NotAsking t' :=
  h.imp fun _ => And.imp_right fun hall call hcall => (hall call hcall).of_offline

namespace Run
variable {α β : Type} {b b' : Backend}

theorem gives_lift {x : StateM Trace α} {t t' : Trace} {a : α} :
    (liftM x : Run α).Gives t a t' ↔ x.run t = (a, t') := by
  rw [Gives, run_lift, Prod.mk.injEq, Except.ok.injEq, Prod.ext_iff]

/-- Whatever the run `x` gives, `x'` gives after the same calls and events, and the database `b` has answers to the
    calls. -/
def Repeats (b : Backend) (x x' : Run α) : Prop := ∀ ⦃t a t'⦄, x.Gives t a t' → x'.Gives t a t' ∧ t.AnsweredBy b t'

namespace Repeats

theorem pure (a : α) : Repeats b (Pure.pure a) (Pure.pure a) := fun _ _ _ hgives => by
  cases hgives
  exact ⟨rfl, .of_calls_eq rfl⟩

theorem bind {x x' : Run α} {f f' : α → Run β} (hx : Repeats b x x') (hf : ∀ a, Repeats b (f a) (f' a)) :
    Repeats b (x >>= f) (x' >>= f') := by
  intro t c t₂ hgives
  obtain ⟨a, t₁, ha, hc⟩ := gives_bind.mp hgives
  obtain ⟨ha', hanswered⟩ := hx ha
  obtain ⟨hc', hanswered'⟩ := hf a hc
  exact ⟨gives_bind.mpr ⟨a, t₁, ha', hc'⟩, hanswered.trans hanswered'⟩

theorem fail {e : Error} {x' : Run α} : Repeats b (Run.fail e) x' := fun _ _ _ hgives => by cases hgives

theorem ofExcept (y : Except Error α) : Repeats b (Run.ofExcept y) (Run.ofExcept y) := by
  cases y with
  | ok a => exact pure a
  | error e => exact fail

theorem log (e : Log.Event) (fields : List (String × String)) : Repeats b (Run.log e fields) (Run.log e fields) :=
  fun _ _ _ hgives => by
    cases hgives
    exact ⟨rfl, .of_calls_eq rfl⟩

/-- A call, where the one side's answers are the other's to the same call and answer it. -/
theorem answer {call call' : Call} {y y' : List Call → Except Error α}
    (hy : ∀ history a, y history = .ok a → y' history = .ok a ∧ call' = call ∧ call.AnsweredBy b) :
    Repeats b (record call >>= fun history => Run.ofExcept (y history))
      (record call' >>= fun history => Run.ofExcept (y' history)) := by
  intro t a t' hgives
  obtain ⟨history, t₁, hrecord, ha⟩ := gives_bind.mp hgives
  obtain ⟨hy', rfl, hanswered⟩ := hy history a (eq_ok_of_gives ha)
  rw [eq_ok_of_gives ha] at ha
  cases hrecord
  cases ha
  refine ⟨gives_bind.mpr ⟨_, _, rfl, ?_⟩, [call'], rfl, List.forall_mem_singleton.mpr hanswered⟩
  rw [hy']
  rfl

theorem search (h : b'.Covers b) (m : Model) (d : Domain) (options : SearchOptions) :
    Repeats b (Run.search b m d options) (Run.search b' m d options) :=
  answer fun history ids hids => ⟨h.search hids, rfl, history, m, ids, rfl, hids⟩

theorem nameSearch (h : b'.Covers b) (m : Model) (name : Json) (op : Operator) (options : SearchOptions) :
    Repeats b (Run.nameSearch b m name op options) (Run.nameSearch b' m name op options) :=
  answer fun _ _ hids => ⟨(h.names hids).1, (h.names hids).2, .nameCall hids⟩

theorem references (h : b'.Covers b) (m : Model) (ids : List Int) (field : String) :
    Repeats b (Run.references b m ids field) (Run.references b' m ids field) :=
  answer fun history owners howners => ⟨h.references howners, rfl, history, m, owners, rfl, howners⟩

theorem parentPaths (h : b'.Covers b) (m : Model) (ids : List Int) :
    Repeats b (Run.parentPaths b m ids) (Run.parentPaths b' m ids) :=
  answer fun history paths hpaths => ⟨h.parentPaths hpaths, rfl, history, m, paths, rfl, hpaths⟩

theorem callHook (name : String) (hook : Hook) (m : Model) (op : Operator) (operand : Operand) :
    Repeats b (Run.callHook name hook m op operand) (Run.callHook name hook m op operand) :=
  answer fun _ _ hd => ⟨hd, rfl, trivial⟩

end Repeats
end Run

namespace Compile

/-- The setting with another database. -/
def Setting.over (s : Setting) (b : Backend) : Setting := { s with backend := b }

/-- Whatever the first builder builds, the second one builds. -/
def RepeatsBuilds (b : Backend) (build build' : QueryBuilder) : Prop :=
  ∀ ctx model d, Run.Repeats b (build ctx model d) (build' ctx model d)

variable {s : Setting} {b b' : Backend} {build build' : QueryBuilder} {l : Leaf} {p : Place} {m : Model}

/-! ### Names and ids -/

theorem idsOfNames_repeats (h : b'.Covers b) (options : SearchOptions) (names : List String) :
    Run.Repeats b (idsOfNames (s.over b) m options names) (idsOfNames (s.over b') m options names) := by
  induction names with
  | nil => exact .pure _
  | cons name rest ih => exact .bind (.nameSearch h _ _ _ _) fun found => .bind ih fun others => .pure _

theorem rootIds_repeats (h : b'.Covers b) : Run.Repeats b (rootIds (s.over b) l m) (rootIds (s.over b') l m) := by
  unfold rootIds
  cases l.right with
  | subquery => exact .fail
  | value v =>
    dsimp only
    cases names? v with
    | some names => exact .bind (idsOfNames_repeats h _ _) fun ids => .pure _
    | none =>
      cases v with
      | bool flag =>
        cases flag
        · exact .bind (.log _ _) fun _ => .pure _
        · exact .fail
      | int n =>
        dsimp only
        cases (Json.int n).int64? with
        | none => exact .fail
        | some id =>
          dsimp only
          split
          · exact .bind (.log _ _) fun _ => .pure _
          · exact .pure _
      | arr items =>
        dsimp only
        cases integers? items with
        | none => exact .fail
        | some ids => exact .pure _
      | null => exact .fail
      | float x => exact .fail
      | str text => exact .fail
      | obj members => exact .fail

theorem relatedOf_repeats (h : b'.Covers b) : Run.Repeats b (relatedOf (s.over b) l m) (relatedOf (s.over b') l m) := by
  unfold relatedOf
  cases l.right with
  | subquery => exact .pure _
  | value v =>
    dsimp only
    cases names? v with
    | some names => exact .bind (.nameSearch h _ _ _ _) fun ids => .pure _
    | none =>
      cases v with
      | int n =>
        dsimp only
        cases (Json.int n).int64? with
        | none => exact .fail
        | some id => exact .pure _
      | arr items =>
        dsimp only
        cases integers? (setItems items) with
        | none => exact .fail
        | some ids => exact .pure _
      | null => exact .fail
      | bool flag => exact .fail
      | float x => exact .fail
      | str text => exact .fail
      | obj members => exact .fail

theorem lineIds_repeats (h : b'.Covers b) (d : Domain) :
    Run.Repeats b (lineIds (s.over b) m d) (lineIds (s.over b') m d) := .search h m d _

theorem nameLeaf_repeats (h : b'.Covers b) (names : Json) :
    Run.Repeats b (nameLeaf (s.over b) l m names) (nameLeaf (s.over b') l m names) :=
  .bind (.nameSearch h _ _ _ _) fun _ => .pure _

/-! ### Hierarchies -/

theorem nextLevel_repeats (h : b'.Covers b) (dir : Direction) (parent : String) (ids : List Int) :
    Run.Repeats b (nextLevel (s.over b) dir m parent ids) (nextLevel (s.over b') dir m parent ids) := by
  cases dir with
  | descendants => exact .search h m _ _
  | ancestors => exact .references h m ids parent

theorem walk_repeats (h : b'.Covers b) (dir : Direction) (parent : String) (rounds : Nat) (visited frontier : IdSet) :
    Run.Repeats b (walk (s.over b) dir m parent rounds visited frontier)
      (walk (s.over b') dir m parent rounds visited frontier) := by
  induction rounds generalizing visited frontier with
  | zero =>
    unfold walk
    split
    · exact .pure _
    · exact .fail
  | succ rounds ih =>
    unfold walk
    split
    · exact .pure _
    · exact .bind (nextLevel_repeats h dir parent _) fun next => ih _ _

theorem hierarchy_repeats (h : b'.Covers b) (dir : Direction) (ids : List Int) (parent : Option String) :
    Run.Repeats b (hierarchy (s.over b) dir ids m parent) (hierarchy (s.over b') dir ids m parent) := by
  unfold hierarchy
  dsimp only
  split
  · cases dir with
    | descendants =>
      exact .bind (.parentPaths h m ids) fun paths => .bind (.log _ _) fun _ => .ofExcept _
    | ancestors =>
      refine .bind (.parentPaths h m ids) fun paths => ?_
      exact .bind (.ofExcept _) fun found => .bind (.log _ _) fun _ => .pure _
  · exact .bind (walk_repeats h dir _ _ _ _) fun found => .bind (.log _ _) fun _ => .pure _

theorem findWith_repeats (hbuild : RepeatsBuilds b build build') (ctx : Context) (model : String) (d : Domain) :
    Run.Repeats b (findWith build ctx model d) (findWith build' ctx model d) := by
  refine .bind (.ofExcept _) fun isFalse => ?_
  cases isFalse
  · exact .bind (hbuild ctx model d) fun q => .pure _
  · exact .pure _

theorem hierarchyDomain_repeats (h : b'.Covers b) (hbuild : RepeatsBuilds b build build') (dir : Direction)
    (ids : List Int) (parent : Option String) (target : Target) :
    Run.Repeats b (hierarchyDomain (s.over b) build dir ids m parent target)
      (hierarchyDomain (s.over b') build' dir ids m parent target) := by
  unfold hierarchyDomain
  split
  · exact .pure _
  · refine .bind (hierarchy_repeats h dir ids parent) fun d => ?_
    cases target with
    | ids => exact .pure _
    | via field => exact .bind (findWith_repeats hbuild _ _ _) fun found => .pure _

/-! ### Leaves -/

theorem domain_repeats (d : Domain) : Run.Repeats b (Step.domain d p) (Step.domain d p) :=
  .bind (.ofExcept _) fun _ => .pure _

theorem emitLeaf_repeats : Run.Repeats b (emitLeaf (s.over b) l p) (emitLeaf (s.over b') l p) := by
  refine .bind (.ofExcept _) fun c => ?_
  cases leafNotice? l with
  | none => exact .pure _
  | some notice => exact .bind (.log _ _) fun _ => .pure _

theorem one2manyHierarchy_repeats (h : b'.Covers b) (hbuild : RepeatsBuilds b build build') (dir : Direction)
    (f inverse : Field) :
    Run.Repeats b (one2manyHierarchy (s.over b) build dir l p f inverse m)
      (one2manyHierarchy (s.over b') build' dir l p f inverse m) := by
  refine .bind (rootIds_repeats h) fun ids => ?_
  split
  · exact .bind (hierarchyDomain_repeats h hbuild _ _ _ _) fun d => domain_repeats d
  · split
    · exact .bind (hierarchyDomain_repeats h hbuild _ _ _ _) fun d => domain_repeats d
    · refine .bind (hierarchyDomain_repeats h hbuild _ _ _ _) fun d => ?_
      exact .bind (lineIds_repeats h d) fun lines => domain_repeats _

theorem allOwners_repeats (h : b'.Covers b) (inverse : Field) :
    Run.Repeats b (allOwners (s.over b) inverse m) (allOwners (s.over b') inverse m) := by
  unfold allOwners
  split
  · exact .pure _
  · exact .bind (lineIds_repeats h _) fun lines => .bind (.references h m lines _) fun owners => .pure _

theorem reduceOne2many_repeats (h : b'.Covers b) (hbuild : RepeatsBuilds b build build') (f : Field) :
    Run.Repeats b (reduceOne2many (s.over b) build l p f m) (reduceOne2many (s.over b') build' l p f m) := by
  refine .bind (.ofExcept _) fun inverse => ?_
  cases Direction.ofOperator? l.op with
  | some dir => exact one2manyHierarchy_repeats h hbuild dir f inverse
  | none =>
    dsimp only
    split
    · exact .bind (allOwners_repeats h inverse) fun owners => .pure _
    · refine .bind (relatedOf_repeats h) fun related => ?_
      cases related with
      | ids ids =>
        cases ids with
        | nil => exact .pure _
        | cons id ids =>
          cases inverse.store with
          | true => exact .pure _
          | false => exact .bind (.references h m _ _) fun owners => .pure _
      | rows sub =>
        cases inverse.store with
        | true => exact .pure _
        | false => exact .fail

theorem many2manyHierarchy_repeats (h : b'.Covers b) (hbuild : RepeatsBuilds b build build') (dir : Direction)
    (f : Field) (relation : Relation) :
    Run.Repeats b (many2manyHierarchy (s.over b) build dir l p f relation m)
      (many2manyHierarchy (s.over b') build' dir l p f relation m) := by
  refine .bind (rootIds_repeats h) fun ids => .bind (hierarchyDomain_repeats h hbuild _ _ _ _) fun d => ?_
  refine .bind (findWith_repeats hbuild _ _ _) fun found => ?_
  split
  · exact .pure _
  · exact .pure _

theorem reduceMany2many_repeats (h : b'.Covers b) (hbuild : RepeatsBuilds b build build') (f : Field) :
    Run.Repeats b (reduceMany2many (s.over b) build l p f m) (reduceMany2many (s.over b') build' l p f m) := by
  unfold reduceMany2many
  cases f.relation with
  | none => exact .fail
  | some relation =>
    dsimp only
    cases Direction.ofOperator? l.op with
    | some dir => exact many2manyHierarchy_repeats h hbuild dir f relation
    | none =>
      dsimp only
      split
      · exact .pure _
      · exact .bind (relatedOf_repeats h) fun related => .pure _

theorem target_repeats (h : b'.Covers b) (hbuild : RepeatsBuilds b build build') (f : Field) (d : Domain) :
    Run.Repeats b (reducePath.target (s.over b) build p f m d) (reducePath.target (s.over b') build' p f m d) := by
  have hfind : ∀ ctx, Run.Repeats b (do return (← findWith build ctx m.name d).operand)
      (do return (← findWith build' ctx m.name d).operand) :=
    fun ctx => .bind (findWith_repeats hbuild ctx _ _) fun found => .pure _
  unfold reducePath.target
  split
  · exact hfind _
  · refine .bind (.ofExcept _) fun name => ?_
    split
    · exact .bind (lineIds_repeats h d) fun lines => .pure _
    · exact hfind _
  · exact hfind _

theorem reduceComputed_repeats (hbuild : RepeatsBuilds b build build') (f : Field) :
    Run.Repeats b (reduceComputed (s.over b) build l p f) (reduceComputed (s.over b') build' l p f) := by
  unfold reduceComputed
  cases f.search with
  | none => exact .bind (.log _ _) fun _ => .pure _
  | some name =>
    have hhook : (s.over b').registry.hook? name = (s.over b).registry.hook? name := rfl
    dsimp only
    rw [hhook]
    cases (s.over b).registry.hook? name with
    | none => exact .bind (.log _ _) fun _ => .pure _
    | some hook =>
      dsimp only
      cases l.path.2 with
      | none => exact .bind (.callHook _ _ _ _ _) fun d => domain_repeats d
      | some rest =>
        refine .bind (.ofExcept _) fun comodel => .bind (findWith_repeats hbuild _ _ _) fun found => ?_
        exact .bind (.callHook _ _ _ _ _) fun d => domain_repeats d

theorem reduceAttachment_repeats (f : Field) :
    Run.Repeats b (reduceAttachment (s.over b) l p f) (reduceAttachment (s.over b') l p f) := by
  unfold reduceAttachment
  dsimp only
  split
  · exact .pure _
  · exact .pure _
  · exact .bind (.log _ _) fun _ => .pure _

theorem reduceMany2one_repeats (h : b'.Covers b) (hbuild : RepeatsBuilds b build build') (head : String) :
    Run.Repeats b (reduceMany2one (s.over b) build l head p m) (reduceMany2one (s.over b') build' l head p m) := by
  unfold reduceMany2one
  cases Direction.ofOperator? l.op with
  | some dir =>
    refine .bind (rootIds_repeats h) fun ids => ?_
    split
    · exact .bind (hierarchyDomain_repeats h hbuild _ _ _ _) fun d => domain_repeats d
    · exact .bind (hierarchyDomain_repeats h hbuild _ _ _ _) fun d => domain_repeats d
  | none =>
    dsimp only
    cases l.right with
    | subquery sub => exact emitLeaf_repeats
    | value v =>
      dsimp only
      split
      · exact .bind (nameLeaf_repeats h v) fun named => .pure _
      · exact emitLeaf_repeats

theorem reduceIdHierarchy_repeats (h : b'.Covers b) (hbuild : RepeatsBuilds b build build') :
    Run.Repeats b (reduceIdHierarchy (s.over b) build l p) (reduceIdHierarchy (s.over b') build' l p) := by
  unfold reduceIdHierarchy
  cases Direction.ofOperator? l.op with
  | none => exact .fail
  | some dir =>
    refine .bind (rootIds_repeats h) fun ids => ?_
    exact .bind (hierarchyDomain_repeats h hbuild _ _ _ _) fun d => domain_repeats d

theorem reduceKind_repeats (h : b'.Covers b) (hbuild : RepeatsBuilds b build build') (kind : FieldKind) :
    Run.Repeats b (reduceKind (s.over b) build l p kind) (reduceKind (s.over b') build' l p kind) := by
  cases kind with
  | inherited parent link => exact .pure _
  | idHierarchy => exact reduceIdHierarchy_repeats h hbuild
  | joinedPath comodel rest => exact .pure _
  | linesPath f comodel rest => exact .bind (.ofExcept _) fun inverse => .bind (hbuild _ _ _) fun lines => .pure _
  | path f comodel rest => exact .bind (target_repeats h hbuild f _) fun operand => .pure _
  | computed f => exact reduceComputed_repeats hbuild f
  | one2many f comodel => exact reduceOne2many_repeats h hbuild f
  | many2many f comodel => exact reduceMany2many_repeats h hbuild f
  | many2one comodel => exact reduceMany2one_repeats h hbuild _
  | attachment f => exact reduceAttachment_repeats f
  | datetime =>
    unfold reduceKind
    dsimp only
    cases widenDate? l with
    | some widened => exact .pure _
    | none => exact emitLeaf_repeats
  | translatable =>
    unfold reduceKind
    dsimp only
    split
    · exact .bind (.ofExcept _) fun c => .pure _
    · exact emitLeaf_repeats
  | plain => exact emitLeaf_repeats

theorem reduce_repeats (h : b'.Covers b) (hbuild : RepeatsBuilds b build build') :
    Run.Repeats b (reduce (s.over b) build l p) (reduce (s.over b') build' l p) := by
  unfold reduce
  split
  · split
    · exact .pure _
    · exact .pure _
  · exact .bind (.ofExcept _) fun kind => reduceKind_repeats h hbuild kind

/-! ### Machines -/

theorem step_repeats (h : b'.Covers b) (hbuild : RepeatsBuilds b build build') (item : Work) (rest : List Work)
    (results : List Cond) (q : Query) :
    Run.Repeats b (Machine.step (s.over b) build item rest results q)
      (Machine.step (s.over b') build' item rest results q) := by
  unfold Machine.step
  split
  · exact .pure _
  · exact .pure _
  · exact .pure _
  · exact .pure _
  · exact .pure _
  · exact .bind (reduce_repeats h hbuild) fun next => .pure _
  · exact .fail

/-- A machine that comes to a condition comes to it with the other database and more fuel too, by induction on the
    fuel. -/
theorem outcome_repeats (h : b'.Covers b) (hbuild : RepeatsBuilds b build build') {fuel fuel' : Nat}
    (hfuel : fuel ≤ fuel') {machine : Machine} {t t' : Trace} {c : Cond} {q : Query}
    (hc : Machine.outcome (s.over b) build fuel machine t = ((.ok c, q), t')) :
    Machine.outcome (s.over b') build' fuel' machine t = ((.ok c, q), t') ∧ t.AnsweredBy b t' := by
  induction fuel generalizing fuel' machine t with
  | zero =>
    obtain ⟨_ | ⟨item, rest⟩, results, q'⟩ := machine
    · rw [Machine.outcome_nil] at hc ⊢
      exact ⟨hc, .of_calls_eq (congrArg (·.2.calls) hc).symm⟩
    · cases hc
  | succ fuel ih =>
    obtain ⟨_ | ⟨item, rest⟩, results, q'⟩ := machine
    · rw [Machine.outcome_nil] at hc ⊢
      exact ⟨hc, .of_calls_eq (congrArg (·.2.calls) hc).symm⟩
    · obtain ⟨left, rfl⟩ := Nat.exists_eq_add_of_le' (Nat.le_trans (Nat.le_add_left 1 fuel) hfuel)
      rw [Machine.outcome_succ] at hc ⊢
      rcases hstep : (Machine.step (s.over b) build item rest results q').run t with ⟨e | next, t₁⟩ <;>
        rw [hstep] at hc
      · cases hc
      · obtain ⟨hstep', hanswered⟩ := step_repeats h hbuild item rest results q' hstep
        obtain ⟨hc', hanswered'⟩ := ih (Nat.le_of_succ_le_succ hfuel) hc
        rw [show (Machine.step (s.over b') build' item rest results q').run t = (.ok next, t₁) from hstep']
        exact ⟨hc', hanswered.trans hanswered'⟩

theorem compileOn_repeats (h : b'.Covers b) (hbuild : RepeatsBuilds b build build') {fuel fuel' : Nat}
    (hfuel : fuel ≤ fuel') {d : Domain} {q q' : Query} {t t' : Trace} {c : Cond}
    (hc : (Compiler.compileOn (s.over b) build fuel p d q).run t = ((.ok c, q'), t')) :
    (Compiler.compileOn (s.over b') build' fuel' p d q).run t = ((.ok c, q'), t') ∧ t.AnsweredBy b t' := by
  unfold Compiler.compileOn at hc ⊢
  cases hd : Domain.distributeNot d with
  | error e =>
    rw [hd] at hc
    cases hc
  | ok e =>
    rw [hd] at hc
    exact outcome_repeats h hbuild hfuel hc

theorem compileWith_repeats (h : b'.Covers b) (hbuild : RepeatsBuilds b build build') {fuel fuel' : Nat}
    (hfuel : fuel ≤ fuel') {model : String} {d : Domain} {q q' : Query} {t t' : Trace}
    (hq : (Compiler.compileWith (s.over b) build fuel model d q).run t = ((.ok (), q'), t')) :
    (Compiler.compileWith (s.over b') build' fuel' model d q).run t = ((.ok (), q'), t') ∧ t.AnsweredBy b t' := by
  cases hm : s.registry.model model with
  | error e =>
    unfold Compiler.compileWith at hq
    rw [show (s.over b).registry.model model = .error e from hm] at hq
    cases hq
  | ok m =>
    rw [compileWith_run (s.over b) build hm] at hq
    rw [compileWith_run (s.over b') build' hm]
    rcases hon : (Compiler.compileOn (s.over b) build fuel ⟨m, q.tableAlias⟩ d q).run t with ⟨⟨e | c, q₁⟩, t₁⟩ <;>
      rw [hon] at hq <;> cases hq
    obtain ⟨hon', hanswered⟩ := compileOn_repeats h hbuild hfuel hon
    rw [hon']
    exact ⟨rfl, hanswered.trans (.of_calls_eq rfl)⟩

/-! ### Requests -/

end Compile

/-- The compiler with another database. -/
def Compiler.over (c : Compiler) (b : Backend) : Compiler := { c with backend := b }

namespace Compile
variable {b b' : Backend}

/-- The queries of a compiler, by induction on the fuel. -/
theorem queryIn_repeats (c : Compiler) (h : b'.Covers b) {fuel fuel' : Nat} (hfuel : fuel ≤ fuel') :
    RepeatsBuilds b ((c.over b).queryIn fuel) ((c.over b').queryIn fuel') := by
  induction fuel generalizing fuel' with
  | zero => exact fun ctx model d t q t' hgives => by cases hgives
  | succ fuel ih =>
    obtain ⟨left, rfl⟩ := Nat.exists_eq_add_of_le' (Nat.le_trans (Nat.le_add_left 1 fuel) hfuel)
    have hleft : fuel ≤ left := Nat.le_of_succ_le_succ hfuel
    intro ctx model d
    refine .bind (.ofExcept _) fun m => .bind (.ofExcept _) fun e => ?_
    cases e.isEmpty with
    | true => exact .pure _
    | false =>
      intro t q t' hgives
      obtain ⟨⟨x, q₁⟩, t₁, hwith, hq⟩ := Run.gives_bind.mp hgives
      cases x with
      | error stop => cases hq
      | ok =>
        cases hq
        obtain ⟨hwith', hanswered⟩ :=
          compileWith_repeats (s := c.setting ctx) h (ih hleft) hleft (Run.gives_lift.mp hwith)
        exact ⟨Run.gives_bind.mpr ⟨_, _, Run.gives_lift.mpr hwith', rfl⟩, hanswered⟩

theorem explain_repeats (c : Compiler) (h : b'.Covers b) (fuel : Nat) (model : String) (d : Domain) :
    Run.Repeats b ((c.over b).explain fuel model d) ((c.over b').explain fuel model d) :=
  .bind (.ofExcept _) fun _ => .bind (queryIn_repeats c h (Nat.le_refl fuel) _ _ _) fun _ => .pure _

/-- What compiles without a database compiles alike with every database, and the database is not asked. -/
theorem compile_offline (c : Compiler) (b : Backend) (fuel : Nat) (model : String) (d : Domain) (t t' : Trace) :
    (∀ q q', ((c.over .offline).compile fuel model d q).run t = ((.ok (), q'), t') →
      ((c.over b).compile fuel model d q).run t = ((.ok (), q'), t') ∧ t.NotAsking t') ∧
    (∀ q, ((c.over .offline).query fuel model d).Gives t q t' →
      ((c.over b).query fuel model d).Gives t q t' ∧ t.NotAsking t') ∧
    (∀ found, ((c.over .offline).search fuel model d).Gives t found t' →
      ((c.over b).search fuel model d).Gives t found t' ∧ t.NotAsking t') ∧
    (∀ e, ((c.over .offline).explain fuel model d).Gives t e t' →
      ((c.over b).explain fuel model d).Gives t e t' ∧ t.NotAsking t') := by
  have hb := b.covers_offline
  have hbuild := queryIn_repeats c hb (Nat.le_refl fuel)
  refine ⟨fun q q' h => ?_, fun q h => ?_, fun found h => ?_, fun e h => ?_⟩
  · exact (compileWith_repeats (s := c.setting c.context) hb hbuild (Nat.le_refl fuel) h).imp_right (·.notAsking)
  · exact (hbuild c.context model d h).imp_right (·.notAsking)
  · exact (findWith_repeats hbuild c.context model d h).imp_right (·.notAsking)
  · exact (explain_repeats c hb fuel model d h).imp_right (·.notAsking)

/-- Tasks are open until they are done: a field without a column that a search hook answers for. -/
def openTaskModel : Model :=
  taskModel.withField { name := "open", type := .boolean, store := false, search := some "search_open" }

/-- A compiler for the tasks with the hook. -/
def openTaskCompiler : Compiler where
  registry := { models := Keyed.empty.insert "task" openTaskModel
                hooks := Keyed.empty.insert "search_open" fun _ _ operand => .ok (.ofLeaf "done" .ne operand) }
  context := taskCompiler.context

/-- The open tasks are the same with every database, which only the hook is asked for. -/
theorem open_tasks_offline :
    let d : Domain := [.leaf ⟨"open", .eq, .value (.bool true)⟩]
    ∃ q t, ((openTaskCompiler.over .offline).query 9 "task" d).Gives {} q t ∧ t.calls.length = 1 ∧
      ∀ b : Backend, ((openTaskCompiler.over b).query 9 "task" d).Gives {} q t ∧ Trace.NotAsking {} t := by
  intro d
  have hok : ((openTaskCompiler.over .offline).query 9 "task" d).run {} |>.1.isOk := by decide +kernel
  have hcalls : (((openTaskCompiler.over .offline).query 9 "task" d).run {}).2.calls.length = 1 := by decide +kernel
  rcases h : ((openTaskCompiler.over .offline).query 9 "task" d).run {} with ⟨stop | q, t⟩ <;> rw [h] at hok hcalls
  · cases hok
  · exact ⟨q, t, h, hcalls, fun b => (compile_offline openTaskCompiler b 9 "task" d {} t).2.1 q h⟩

end Compile
end RecordFilter
