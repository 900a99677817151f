import RecordFilter.Compile.Run

/-! What runs do whatever was called before them: the results that they can give, and the reasons for
    which they can stop. -/

namespace RecordFilter.Run
variable {α β : Type} {P : α → Prop} {E : Stop → Prop}

/-- From the trace `t` the run gives `a`. -/
def Gives (r : Run α) (t : Trace) (a : α) (t' : Trace) : Prop := r.run t = (.ok a, t')

/-- From the trace `t` the run stops for the reason `e`. -/
def Stops (r : Run α) (t : Trace) (e : Stop) (t' : Trace) : Prop := r.run t = (.error e, t')

/-- From every trace, the run gives only results in `P` and stops only for reasons in `E`. -/
structure Meets (r : Run α) (P : α → Prop) (E : Stop → Prop) : Prop where
  gives : ∀ {t a t'}, r.Gives t a t' → P a
  stops : ∀ {t e t'}, r.Stops t e t' → E e

/-! ### Parts of a run -/

theorem run_bind (x : Run α) (f : α → Run β) (t : Trace) :
    (x >>= f).run t = match x.run t with
      | (.ok a, t') => (f a).run t'
      | (.error e, t') => (.error e, t') := by
  show (x.run t >>= fun r : Except Stop α × Trace => ExceptT.bindCont f r.1 r.2) = _
  rcases x.run t with ⟨e | a, t'⟩ <;> rfl

theorem run_lift (x : StateM Trace α) (t : Trace) : (liftM x : Run α).run t = (.ok (x.run t).1, (x.run t).2) := rfl

theorem gives_bind {x : Run α} {f : α → Run β} {t t' : Trace} {b : β} :
    (x >>= f).Gives t b t' ↔ ∃ a t₁, x.Gives t a t₁ ∧ (f a).Gives t₁ b t' := by
  unfold Gives
  rw [run_bind]
  rcases x.run t with ⟨e | a, t₁⟩
  · constructor
    · intro h
      cases h
    · rintro ⟨a, t₁, ha, -⟩
      cases ha
  · constructor
    · exact fun h => ⟨a, t₁, rfl, h⟩
    · rintro ⟨a, t₁, ha, h⟩
      cases ha
      exact h

theorem stops_bind {x : Run α} {f : α → Run β} {t t' : Trace} {e : Stop} :
    (x >>= f).Stops t e t' ↔ x.Stops t e t' ∨ ∃ a t₁, x.Gives t a t₁ ∧ (f a).Stops t₁ e t' := by
  unfold Stops Gives
  rw [run_bind]
  rcases x.run t with ⟨e' | a, t₁⟩
  · constructor
    · intro h
      cases h
      exact Or.inl rfl
    · rintro (h | ⟨a, t₁, ha, -⟩)
      · cases h
        rfl
      · cases ha
  · constructor
    · exact fun h => Or.inr ⟨a, t₁, rfl, h⟩
    · rintro (h | ⟨a, t₁, ha, h⟩)
      · cases h
      · cases ha
        exact h

namespace Meets

theorem bind {x : Run α} {f : α → Run β} {Q : β → Prop} (hx : x.Meets P E) (hf : ∀ a, P a → (f a).Meets Q E) :
    (x >>= f).Meets Q E where
  gives h := by
    obtain ⟨a, t₁, ha, hb⟩ := gives_bind.mp h
    exact (hf a (hx.gives ha)).gives hb
  stops h := by
    rcases stops_bind.mp h with h | ⟨a, t₁, ha, hb⟩
    · exact hx.stops h
    · exact (hf a (hx.gives ha)).stops hb

theorem pure {a : α} (h : P a) : (Pure.pure a : Run α).Meets P E where
  gives hr := by
    cases hr
    exact h
  stops hr := by cases hr

theorem throw {e : Stop} (h : E e) : (MonadExcept.throw e : Run α).Meets P E where
  gives hr := by cases hr
  stops hr := by
    cases hr
    exact h

/-- A computation that cannot stop by itself. -/
theorem lift {x : StateM Trace α} (h : ∀ {t a t'}, x.run t = (a, t') → P a) : (liftM x : Run α).Meets P E where
  gives {t a t'} hr := by
    rw [Gives, run_lift] at hr
    cases hr
    exact h rfl
  stops {t e t'} hr := by
    rw [Stops, run_lift] at hr
    cases hr

theorem fail {e : Error} (h : E (.error e)) : (Run.fail e : Run α).Meets P E := throw h

theorem ofExcept {x : Except Error α} (hok : ∀ a, x = .ok a → P a) (herr : ∀ e, x = .error e → E (.error e)) :
    (Run.ofExcept x).Meets P E := by
  cases x with
  | ok a => exact pure (hok a rfl)
  | error e => exact fail (herr e rfl)

theorem log (e : Log.Event) (fields : List (String × String)) : (Run.log e fields).Meets (fun _ => True) E where
  gives _ := trivial
  stops h := by cases h

theorem record (c : Call) : (Run.record c).Meets (fun _ => True) E where
  gives _ := trivial
  stops h := by cases h

theorem search {b : Backend} {m : Model} {d : Domain} {options : SearchOptions}
    (h : ∀ history e, b.search history m d options = .error e → E (.error e)) :
    (Run.search b m d options).Meets (fun _ => True) E :=
  bind (record _) fun history _ => ofExcept (fun _ _ => trivial) (h history)

theorem nameSearch {b : Backend} {m : Model} {name : Json} {op : Operator} {options : SearchOptions}
    (h : ∀ history e, b.findByName history m name op options = .error e → E (.error e)) :
    (Run.nameSearch b m name op options).Meets (fun _ => True) E :=
  bind (record _) fun history _ => ofExcept (fun _ _ => trivial) (h history)

theorem references {b : Backend} {m : Model} {ids : List Int} {field : String}
    (h : ∀ history e, b.references history m ids field = .error e → E (.error e)) :
    (Run.references b m ids field).Meets (fun _ => True) E :=
  bind (record _) fun history _ => ofExcept (fun _ _ => trivial) (h history)

theorem parentPaths {b : Backend} {m : Model} {ids : List Int}
    (h : ∀ history e, b.parentPaths history m ids = .error e → E (.error e)) :
    (Run.parentPaths b m ids).Meets (fun _ => True) E :=
  bind (record _) fun history _ => ofExcept (fun _ _ => trivial) (h history)

theorem callHook {name : String} {hook : Hook} {m : Model} {op : Operator} {operand : Operand} {P : Domain → Prop}
    (hok : ∀ d, hook m op operand = .ok d → P d) (herr : ∀ e, hook m op operand = .error e → E (.error e)) :
    (Run.callHook name hook m op operand).Meets P E :=
  bind (record _) fun _ _ => ofExcept hok herr

end Meets
end RecordFilter.Run
