import RecordFilter.Proofs.Compile.Asking
import RecordFilter.Proofs.Compile.Recursion
import RecordFilter.Proofs.Compile.Aliases

/-! An accepted schema gives no errors. Every leaf that comes up in a compilation is read on a registered model, and
    over an accepted registry the reduction of such a leaf finds every comodel, back reference and relation table that
    it looks up. So a request on a registered model can fail because of its domain, of the limits of the compiler or of
    the database, but not because of what the compiler was set up with. -/

namespace RecordFilter

/-- The database fails with errors of its own only. -/
structure Backend.FailsAlone (b : Backend) : Prop where
  search {history m d options e} : b.search history m d options = .error e → ∃ fault, e = .backend fault
  names {history m name op options e} : b.findByName history m name op options = .error e → ∃ fault, e = .backend fault
  references {history m ids field e} : b.references history m ids field = .error e → ∃ fault, e = .backend fault
  parentPaths {history m ids e} : b.parentPaths history m ids = .error e → ∃ fault, e = .backend fault

/-- A reason to stop that does not lie in what the compiler was set up with. -/
def Stop.SparesMetadata : Stop → Prop
  | .error e => e.isMetadata = false
  | .unfinished => True

namespace Compile
open Sql

variable {s : Setting} {build : QueryBuilder} {r : Registry} {p : Place}

theorem OfDomain.spares {e : Error} (h : OfDomain e) : (Stop.error e).SparesMetadata := h.isMetadata_eq_false

theorem Answers.spares {b : Backend} {e : Error} (hb : b.FailsAlone) (hhooks : r.Hookless) (h : Answers r b e) :
    (Stop.error e).SparesMetadata := by
  cases h with
  | search h =>
    obtain ⟨fault, rfl⟩ := hb.search h
    rfl
  | names h =>
    obtain ⟨fault, rfl⟩ := hb.names h
    rfl
  | references h =>
    obtain ⟨fault, rfl⟩ := hb.references h
    rfl
  | parentPaths h =>
    obtain ⟨fault, rfl⟩ := hb.parentPaths h
    rfl
  | hook h _ =>
    rw [hhooks] at h
    cases h

theorem Stumbles.spares {b : Backend} {stop : Stop} (hb : b.FailsAlone) (hhooks : r.Hookless) (h : Stumbles r b stop) :
    stop.SparesMetadata := by
  cases h with
  | answer h => exact h.spares hb hhooks
  | own h => exact h

/-- The builder fails a leaf's queries only for reasons that do not lie in what the compiler was set up with. -/
def SparingBuilder (s : Setting) (build : QueryBuilder) : Prop :=
  ∀ l ctx model d, Nests s l ctx model d → (build ctx model d).Meets (fun _ => True) Stop.SparesMetadata

/-! ### The machine -/

namespace Machine

/-- The leaves that are still to do are read on registered models. -/
def Registered (r : Registry) (m : Machine) : Prop := ∀ l p, ⟨.leaf l, p⟩ ∈ m.work → r.Has p.model

theorem start_registered (hp : r.Has p.model) (d : Domain) (q : Query) : (start p d q).Registered r := by
  intro l p' hmem
  obtain ⟨token, -, hwork⟩ := List.mem_map.mp (List.mem_reverse.mp hmem)
  cases hwork
  exact hp

/-- What stands in the stead of a leaf comes up before the other work. -/
theorem mem_take_work {q : Query} {results : List Cond} {rest : List Work} {step : Step} {w : Work}
    (h : w ∈ (take q results rest step).work) : w ∈ step.works ∨ w ∈ rest := by
  cases step with
  | emit c => exact .inr h
  | requeue items => exact (List.mem_append.mp h).imp_left List.mem_reverse.mp
  | follow join item => exact (List.mem_cons.mp h).imp_left List.mem_singleton.mpr

/-- One token leaves leaves on registered models to do, or stops for a reason that spares the metadata. -/
theorem step_registered (hr : s.registry.Valid) (hhooks : s.registry.Hookless) (hb : s.backend.FailsAlone)
    (hbuild : SparingBuilder s build) {item : Work} {rest : List Work} {results : List Cond} {q : Query}
    (hm : Registered s.registry ⟨item :: rest, results, q⟩) :
    (step s build item rest results q).Meets (Registered s.registry) Stop.SparesMetadata := by
  have other : ∀ results', Registered s.registry ⟨rest, results', q⟩ := fun _ l p hmem =>
    hm l p (List.mem_cons_of_mem item hmem)
  unfold step
  split
  · exact .pure (other _)
  · exact .pure (other _)
  · exact .pure (other _)
  · exact .pure (other _)
  · exact .pure (other _)
  · rename_i l htoken
    have hhas : s.registry.Has item.place.model := hm l item.place (by
      rw [← htoken]
      exact List.mem_cons_self)
    have hreduce := (reduce_consults (l := l) hr hhooks hhas).imp fun _ h => h.spares hb hhooks
    refine .bind (hreduce.meets (hbuild l _ _ _)) fun next hturns => .pure fun l' p' hmem => ?_
    rcases mem_take_work hmem with hmem | hmem
    · exact (hturns.keeps hhas hmem).1
    · exact other [] l' p' hmem
  · exact .fail rfl

/-- A machine with such leaves stops only for such reasons, by induction on the fuel. -/
theorem run_spares (hr : s.registry.Valid) (hhooks : s.registry.Hookless) (hb : s.backend.FailsAlone)
    (hbuild : SparingBuilder s build) {fuel : Nat} {m : Machine} (hm : m.Registered s.registry) {t t' : Trace}
    {stop : Stop} {q : Query} (h : outcome s build fuel m t = ((.error stop, q), t')) : stop.SparesMetadata := by
  -- With nothing left to do, the one reason to stop is that there is not one condition.
  have done : ∀ {fuel results q' t}, outcome s build fuel ⟨[], results, q'⟩ t = ((.error stop, q), t') →
      stop.SparesMetadata := by
    intro fuel results q' t h
    rw [outcome_nil] at h
    obtain ⟨⟨hresult, -⟩, -⟩ : (result results = .error stop ∧ q' = q) ∧ t = t' := by simpa using h
    unfold result at hresult
    split at hresult <;> cases hresult
    rfl
  induction fuel generalizing m t with
  | zero =>
    obtain ⟨_ | ⟨item, rest⟩, results, q'⟩ := m
    · exact done h
    · cases h
      trivial
  | succ fuel ih =>
    obtain ⟨_ | ⟨item, rest⟩, results, q'⟩ := m
    · exact done h
    · have hmeets := step_registered hr hhooks hb hbuild hm
      rw [outcome_succ] at h
      rcases hstep : (step s build item rest results q').run t with ⟨e | next, t₁⟩ <;> rw [hstep] at h
      · cases h
        exact hmeets.stops hstep
      · exact ih (hmeets.gives hstep) h

end Machine

/-! ### Compilations -/

section
variable {c : Compiler}

theorem compileOn_spares (hr : s.registry.Valid) (hhooks : s.registry.Hookless) (hb : s.backend.FailsAlone)
    (hbuild : SparingBuilder s build) (hp : s.registry.Has p.model) {fuel : Nat} {d : Domain} {q q' : Query}
    {t t' : Trace} {stop : Stop}
    (h : (Compiler.compileOn s build fuel p d q).run t = ((.error stop, q'), t')) : stop.SparesMetadata := by
  unfold Compiler.compileOn at h
  split at h
  · rename_i hd
    cases h
    exact (distributeNot_error hd).spares
  · exact Machine.run_spares hr hhooks hb hbuild (Machine.start_registered hp _ q) h

/-- The queries that a leaf asks for are on registered models. -/
theorem SparingBuilder.of_has
    (h : ∀ {m}, s.registry.Has m → ∀ ctx d, (build ctx m.name d).Meets (fun _ => True) Stop.SparesMetadata) :
    SparingBuilder s build := by
  intro l ctx model d hnests
  cases hnests with
  | path _ hhas _ => exact h hhas _ _
  | hierarchy hhas _ _ => exact h hhas _ _

/-- The queries on registered models, by induction on the fuel: those that they need are on registered models too. -/
theorem queryIn_spares (hr : c.registry.Valid) (hhooks : c.registry.Hookless) (hb : c.backend.FailsAlone) (fuel : Nat)
    {m : Model} (hm : c.registry.Has m) (ctx : Context) (d : Domain) :
    (c.queryIn fuel ctx m.name d).Meets (fun _ => True) Stop.SparesMetadata := by
  induction fuel generalizing ctx m d with
  | zero => exact .throw trivial
  | succ fuel ih =>
    refine queryIn_meets (fun e h => ?_) (fun _ _ h => (withActive_error h).spares) (fun _ _ => trivial)
      (fun _ _ _ _ _ _ _ _ _ _ _ => trivial) fun m' d' q q' stop tr tr' hm' h => ?_
    · rw [hr.built.model_eq hm] at h
      cases h
    · have hhas : c.registry.Has m' := Registry.has_of_model hm'
      exact compileOn_spares (s := c.setting ctx) (p := ⟨m', _⟩) hr hhooks hb (.of_has ih) hhas h

/-- A request on a registered model over an accepted registry never fails because of the schema, the configuration or
    the name of a model, however deep inside it something fails. -/
theorem request_spares_metadata (c : Compiler) (hr : c.registry.Valid) (hhooks : c.registry.Hookless)
    (hb : c.backend.FailsAlone) {model : String} {m : Model} (hm : c.registry.model model = .ok m) (fuel : Nat)
    (d : Domain) {t t' : Trace} {e : Error} :
    (∀ q q', (c.compile fuel model d q).run t = ((.error (.error e), q'), t') → e.isMetadata = false) ∧
    ((c.query fuel model d).Stops t (.error e) t' → e.isMetadata = false) ∧
    ((c.search fuel model d).Stops t (.error e) t' → e.isMetadata = false) ∧
    ((c.explain fuel model d).Stops t (.error e) t' → e.isMetadata = false) := by
  have hhas : c.registry.Has m := Registry.has_of_model hm
  have hquery : (c.query fuel model d).Meets (fun _ => True) Stop.SparesMetadata := by
    rw [← hr.built.name_of_model hm]
    exact queryIn_spares hr hhooks hb fuel hhas c.context d
  refine ⟨fun q q' h => ?_, hquery.stops, ?_, ?_⟩
  · unfold Compiler.compile at h
    rw [compileWith_run _ _ hm] at h
    rcases hon : (Compiler.compileOn (c.setting c.context) (c.queryIn fuel) fuel ⟨m, q.tableAlias⟩ d q).run t with
      ⟨⟨stop | cond, q''⟩, t''⟩ <;> rw [hon] at h <;> cases h
    exact compileOn_spares (s := c.setting c.context) (p := ⟨m, _⟩) hr hhooks hb
      (.of_has (queryIn_spares hr hhooks hb fuel)) hhas hon
  · have hsearch : (c.search fuel model d).Meets (fun _ => True) Stop.SparesMetadata := by
      unfold Compiler.search findWith
      refine .bind (P := fun _ => True) (.ofExcept (fun _ _ => trivial) fun _ h => (isFalse_error h).spares) ?_
      intro b _
      split
      · exact .pure trivial
      · exact .bind hquery fun q _ => .pure trivial
    exact hsearch.stops
  · have hexplain : (c.explain fuel model d).Meets (fun _ => True) Stop.SparesMetadata := by
      unfold Compiler.explain
      refine .bind (P := fun _ => True) (.ofExcept (fun _ _ => trivial) fun e h => ?_) fun m _ => ?_
      · rw [hm] at h
        cases h
      · exact .bind hquery fun q _ => .pure trivial
    exact hexplain.stops

end

theorem failsAlone_offline : Backend.offline.FailsAlone where
  search h := by
    cases h
    exact ⟨_, rfl⟩
  names h := by
    cases h
    exact ⟨_, rfl⟩
  references h := by
    cases h
    exact ⟨_, rfl⟩
  parentPaths h := by
    cases h
    exact ⟨_, rfl⟩

/-- Without a database, users of partners in some part of the world cannot be told: the search for the partners needs
    the countries there by name. -/
theorem request_spares_metadata_users :
    let c := userCompiler
    let d : Domain := [.leaf ⟨"partner_id.country_id", .childOf, .value (.str "Benelux")⟩]
    c.registry.Valid ∧ c.registry.Hookless ∧ c.backend.FailsAlone ∧ c.registry.model "user" = .ok userModel ∧
      ∃ fault t', (c.query 6 "user" d).Stops {} (.error (.backend fault)) t' ∧
        (Error.backend fault).isMetadata = false := by
  intro c d
  have hhooks : c.registry.Hookless := fun _ => rfl
  have hm : c.registry.model "user" = .ok userModel := rfl
  have hfails : ((c.query 6 "user" d).run {}).1 matches .error (.error (.backend _)) := by decide +kernel
  obtain ⟨fault, t', h⟩ : ∃ fault t', (c.query 6 "user" d).Stops {} (.error (.backend fault)) t' := by
    rcases hrun : (c.query 6 "user" d).run {} with ⟨x, t'⟩
    rw [hrun] at hfails
    dsimp only at hfails
    split at hfails
    · exact ⟨_, t', hrun⟩
    · cases hfails
  exact ⟨valid_users, hhooks, failsAlone_offline, hm, fault, t', h,
    (request_spares_metadata c valid_users hhooks failsAlone_offline hm 6 d).2.1 h⟩

end Compile
end RecordFilter
