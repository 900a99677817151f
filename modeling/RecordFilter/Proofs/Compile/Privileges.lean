import RecordFilter.Proofs.Compile.Calls

/-! The rights that records are searched with. The leaves that a request comes to are those of its domain, those that
    stand in their stead, and those of the queries inside the query, and every call of the request is one for such a
    leaf. So no domain and no name from a caller or a search hook is searched with the access rules left out, whatever
    the database answers. -/

namespace RecordFilter.Compile
open Sql

/-! ### The leaves of a request -/

/-- The leaves that the compilation of a domain comes to, with the context and the place they are read in: those of the
    domain, those that stand in the stead of a leaf, and those of the domains whose records a leaf asks for. -/
inductive Arises (c : Compiler) (ctx : Context) (p : Place) (d : Domain) : Context → Leaf → Place → Prop
  | own {e l} : Domain.distributeNot d = .ok e → l ∈ e.leaves → Arises c ctx p d ctx l p
  | turned {ctx' l p' fuel step l' p''} : Arises c ctx p d ctx' l p' →
      Reduces (c.setting ctx') (c.queryIn fuel) l p' step → ⟨.leaf l', p''⟩ ∈ step.works → Arises c ctx p d ctx' l' p''
  | sought {ctx' l p' ctx'' model d' m e e' l'} : Arises c ctx p d ctx' l p' →
      Nests (c.setting ctx') l ctx'' model d' → c.registry.model model = .ok m →
      withActive c.registry ctx'' m d' = .ok e → Domain.distributeNot e = .ok e' → l' ∈ e'.leaves →
      Arises c ctx p d ctx'' l' ⟨m, m.table⟩

/-- The call is one for a leaf that the compilation of a domain comes to. -/
def Accounted (c : Compiler) (ctx : Context) (p : Place) (d : Domain) (call : Call) : Prop :=
  ∃ ctx' l p', Arises c ctx p d ctx' l p' ∧ CallsFor (c.setting ctx') l p' call

/-- The call is one for a leaf that the query of a domain comes to. -/
def AccountedInQuery (c : Compiler) (ctx : Context) (model : String) (d : Domain) (call : Call) : Prop :=
  ∃ m e, c.registry.model model = .ok m ∧ withActive c.registry ctx m d = .ok e ∧
    Accounted c ctx ⟨m, m.table⟩ e call

/-! ### Machines -/

section
variable {s : Setting} {build : QueryBuilder} {P : Call → Prop} {W : Work → Prop}

theorem step_makes {item : Work} (h : ∀ l, item.token = .leaf l → Allows s build l item.place P) (rest : List Work)
    (results : List Cond) (q : Query) : (Machine.step s build item rest results q).Makes P := by
  unfold Machine.step
  split
  · exact .pure _
  · exact .pure _
  · exact .pure _
  · exact .pure _
  · exact .pure _
  · rename_i l htoken
    exact .bind (reduce_makes (h l htoken)) fun next => .pure _
  · exact .fail _

/-- Where the machine keeps what it works on, and that allows no calls but those in `P`, it makes no others, by
    induction on the fuel. -/
theorem outcome_makes (h : Inductive s build W (fun _ => True) fun _ => True)
    (hallows : ∀ l p, W ⟨.leaf l, p⟩ → Allows s build l p P) (fuel : Nat) {m : Machine} (hm : ∀ w ∈ m.work, W w)
    (t : Trace) : t.Adds P (Machine.outcome s build fuel m t).2 := by
  induction fuel generalizing m t with
  | zero =>
    obtain ⟨_ | ⟨item, rest⟩, results, q⟩ := m
    · rw [Machine.outcome_nil]
      exact .of_calls_eq rfl
    · exact .of_calls_eq rfl
  | succ fuel ih =>
    obtain ⟨_ | ⟨item, rest⟩, results, q⟩ := m
    · rw [Machine.outcome_nil]
      exact .of_calls_eq rfl
    · have hitem : ∀ l, item.token = .leaf l → Allows s build l item.place P := fun l hl =>
        hallows l _ (hl ▸ hm item List.mem_cons_self)
      have hmakes := step_makes hitem rest results q t
      rw [Machine.outcome_succ]
      rcases hstep : (Machine.step s build item rest results q).run t with ⟨e | next, t₁⟩ <;> rw [hstep] at hmakes
      · exact hmakes
      · have hkeeps : Machine.Keeps W (fun _ => True) (fun _ => True) ⟨item :: rest, results, q⟩ :=
          ⟨hm, fun _ _ => trivial, trivial⟩
        exact hmakes.trans (ih (Machine.step_keeps h hkeeps hstep).work t₁)

theorem compileOn_makes (h : Inductive s build W (fun _ => True) fun _ => True)
    (hallows : ∀ l p, W ⟨.leaf l, p⟩ → Allows s build l p P) (fuel : Nat) {p : Place} {d : Domain}
    (hd : ∀ e, Domain.distributeNot d = .ok e → ∀ w ∈ Work.ofDomain p e, W w) (q : Query) (t : Trace) :
    t.Adds P ((Compiler.compileOn s build fuel p d q).run t).2 := by
  unfold Compiler.compileOn
  cases he : Domain.distributeNot d with
  | error e => exact .of_calls_eq rfl
  | ok e =>
    exact outcome_makes h hallows fuel (m := Machine.start p e q) (fun w hw => hd e he w (List.mem_reverse.mp hw)) t

theorem compileWith_makes (h : Inductive s build W (fun _ => True) fun _ => True)
    (hallows : ∀ l p, W ⟨.leaf l, p⟩ → Allows s build l p P) (fuel : Nat) {model : String} {m : Model}
    (hm : s.registry.model model = .ok m) {d : Domain} {q : Query}
    (hd : ∀ e, Domain.distributeNot d = .ok e → ∀ w ∈ Work.ofDomain ⟨m, q.tableAlias⟩ e, W w) (t : Trace) :
    t.Adds P ((Compiler.compileWith s build fuel model d q).run t).2 := by
  have hon := compileOn_makes h hallows fuel hd q t
  rw [compileWith_run s build hm]
  rcases hrun : (Compiler.compileOn s build fuel ⟨m, q.tableAlias⟩ d q).run t with ⟨⟨stop | cond, q'⟩, t'⟩ <;>
    rw [hrun] at hon
  · exact hon
  · exact hon.trans (.of_calls_eq rfl)

end

/-! ### Requests -/

section
variable {c : Compiler} {ctx ctx' : Context} {p p' : Place} {d : Domain}

/-- The work is on a leaf that the compilation comes to, or on no leaf. -/
def WorkArises (c : Compiler) (ctx : Context) (p : Place) (d : Domain) (ctx' : Context) (w : Work) : Prop :=
  ∀ l, w.token = .leaf l → Arises c ctx p d ctx' l w.place

theorem workArises_ofDomain {e : Domain} (h : ∀ l ∈ e.leaves, Arises c ctx p d ctx' l p') :
    ∀ w ∈ Work.ofDomain p' e, WorkArises c ctx p d ctx' w := by
  intro w hw l hl
  obtain ⟨token, htoken, rfl⟩ := List.mem_map.mp hw
  exact h l (List.mem_filterMap.mpr ⟨token, htoken, by rw [show token = .leaf l from hl]; rfl⟩)

theorem Step.keeps_of_works {W : Work → Prop} {step : Step} (h : ∀ w ∈ step.works, W w) :
    step.Keeps W (fun _ => True) fun _ => True := by
  cases step with
  | emit cond => trivial
  | requeue items => exact h
  | follow join item => exact ⟨fun _ _ => trivial, h item (List.mem_singleton_self item)⟩

theorem inductive_arises (c : Compiler) (ctx : Context) (p : Place) (d : Domain) (ctx' : Context) (fuel : Nat) :
    Inductive (c.setting ctx') (c.queryIn fuel) (WorkArises c ctx p d ctx') (fun _ => True) fun _ => True where
  literal _ := trivial
  and _ _ := trivial
  or _ _ := trivial
  not _ := trivial
  reduce {l p' t t' step} hl hgives := by
    refine Step.keeps_of_works fun w hw l' hl' => ?_
    have hmem : ⟨.leaf l', w.place⟩ ∈ step.works := hl' ▸ hw
    exact (hl l rfl).turned (reduce_meets.gives hgives) hmem

/-- What a leaf that arises calls for is accounted for, if queries for domains of such leaves are. -/
theorem allows_of_arises {fuel : Nat} {l : Leaf}
    (hquery : ∀ {ctx'' model d'}, (∀ m e e', c.registry.model model = .ok m → withActive c.registry ctx'' m d' = .ok e →
      Domain.distributeNot e = .ok e' → ∀ l ∈ e'.leaves, Arises c ctx p d ctx'' l ⟨m, m.table⟩) →
        (c.queryIn fuel ctx'' model d').Makes (Accounted c ctx p d))
    (h : Arises c ctx p d ctx' l p') : Allows (c.setting ctx') (c.queryIn fuel) l p' (Accounted c ctx p d) where
  call hcall := ⟨ctx', l, p', h, hcall⟩
  build hnests := hquery fun _ _ _ hm he he' _ hl => h.sought hnests hm he he' hl

/-- The queries inside a compilation make only calls for leaves that the compilation comes to, if they are for domains
    of such leaves. By induction on the fuel, which the queries inside them have one less of. -/
theorem queryIn_makes (fuel : Nat) {model : String} {d' : Domain}
    (h : ∀ m e e', c.registry.model model = .ok m → withActive c.registry ctx' m d' = .ok e →
      Domain.distributeNot e = .ok e' → ∀ l ∈ e'.leaves, Arises c ctx p d ctx' l ⟨m, m.table⟩) :
    (c.queryIn fuel ctx' model d').Makes (Accounted c ctx p d) := by
  induction fuel generalizing ctx' model d' with
  | zero => exact .throw _
  | succ fuel ih =>
    refine .ofExcept_bind fun m hm => .ofExcept_bind fun e he => ?_
    split
    · exact .pure _
    · refine .bind (fun t => ?_) fun (x, q) => ?_
      · exact compileWith_makes (s := c.setting ctx') (inductive_arises c ctx p d ctx' fuel)
          (fun l p' hl => allows_of_arises ih (hl l rfl)) fuel hm
          (fun e' he' => workArises_ofDomain (h m e e' hm he he')) t
      · cases x with
        | ok => exact .pure _
        | error stop => exact .throw stop

/-- The query of a domain makes only calls for leaves that it comes to, and none where the model is unknown. -/
theorem queryIn_accounted (c : Compiler) (fuel : Nat) (ctx : Context) (model : String) (d : Domain) :
    (c.queryIn fuel ctx model d).Makes (AccountedInQuery c ctx model d) := by
  cases fuel with
  | zero => exact .throw _
  | succ fuel =>
    cases hm : c.registry.model model with
    | error err =>
      exact .ofExcept_bind fun m hm' => by cases hm.symm.trans hm'
    | ok m =>
      cases he : withActive c.registry ctx m d with
      | error err =>
        refine .ofExcept_bind fun m' hm' => .ofExcept_bind fun e he' => ?_
        cases hm.symm.trans hm'
        cases he.symm.trans he'
      | ok e =>
        refine (queryIn_makes (p := ⟨m, m.table⟩) (d := e) (fuel + 1) ?_).imp fun call h => ⟨m, e, hm, he, h⟩
        intro m' e' e'' hm' he' hd l hl
        cases hm.symm.trans hm'
        cases he.symm.trans he'
        exact .own hd hl

/-- Each call of a request is one for a leaf that the request comes to. Where it is a search that leaves access rules
    out, it looks for the children of some records, by the parent field of a model that a `child_of` leaf is about or by
    the field of that leaf. Every search by a name or a domain that comes from a leaf, whether the leaf was given by the
    caller or by a search hook, keeps to the access rules. -/
theorem privileged_only_descending (c : Compiler) (fuel : Nat) (model : String) (d : Domain) (t : Trace) :
    (∀ q, t.Adds (fun call => ∃ m, c.registry.model model = .ok m ∧ Accounted c c.context ⟨m, q.tableAlias⟩ d call)
      ((c.compile fuel model d q).run t).2) ∧
    t.Adds (AccountedInQuery c c.context model d) ((c.query fuel model d).run t).2 ∧
    t.Adds (AccountedInQuery c c.context model d) ((c.search fuel model d).run t).2 ∧
    t.Adds (AccountedInQuery c c.context model d) ((c.explain fuel model d).run t).2 := by
  have hquery := queryIn_accounted c fuel c.context model d
  refine ⟨fun q => ?_, hquery t, ?_, ?_⟩
  · cases hm : c.registry.model model with
    | error e =>
      unfold Compiler.compile Compiler.compileWith
      rw [show (c.setting c.context).registry.model model = .error e from hm]
      exact .of_calls_eq rfl
    | ok m =>
      refine Trace.Adds.imp (fun call h => ⟨m, rfl, h⟩) ?_
      refine compileWith_makes (s := c.setting c.context)
        (inductive_arises c c.context ⟨m, q.tableAlias⟩ d c.context fuel) ?_ fuel hm
        (fun e he => workArises_ofDomain fun l hl => .own he hl) t
      intro l p' hl
      exact allows_of_arises (queryIn_makes fuel) (hl l rfl)
  · refine Run.Makes.bind (.ofExcept _) (fun isFalse => ?_) t
    cases isFalse
    · exact .bind hquery fun q => .pure _
    · exact .pure _
  · exact Run.Makes.bind (.ofExcept _) (fun m => .bind hquery fun q => .pure _) t

/-- The pages below a page, in a page that is found by its name: the name is searched under the access rules, and then
    two levels without. -/
example :
    let d : Domain := [.and, .leaf ⟨"parent_id", .childOf, .value (.int 2)⟩,
      .leaf ⟨"parent_id", .ilike, .value (.str "draft")⟩]
    ((folderCompiler.query 9 "page" d).run {}).2.calls.map (·.isPrivileged) = [false, true, true] := by
  decide +kernel

end
end RecordFilter.Compile
