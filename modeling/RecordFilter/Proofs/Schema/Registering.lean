import RecordFilter.Proofs.Schema.Registered
import Mathlib.Data.List.Nodup

/-! Registering models one after another. Each entry of the registry is a model under its own name, with its names in
    their patterns and the fields that every model has; a call fails on a bad name or a name that is taken, and then
    changes nothing; and the order of the calls makes no difference. -/

namespace RecordFilter

namespace Text

/-! ### The patterns of names -/

/-- A letter or an underscore, then letters, digits and underscores. -/
def IsIdentifier (s : String) : Prop :=
  ∃ c rest, s.toList = c :: rest ∧ startsIdentifier c ∧ ∀ d ∈ rest, continuesIdentifier d

/-- A part of a model name after a dot. -/
def IsSegment (cs : List Char) : Prop := cs ≠ [] ∧ ∀ d ∈ cs, inSegment d

/-- A lower-case letter or an underscore, then lower-case letters, digits and underscores, then segments after dots. -/
def IsModelName (s : String) : Prop :=
  ∃ c rest, ∃ segments : List (List Char), s.toList = c :: (rest ++ segments.flatMap ('.' :: ·)) ∧ (isLower c ∨ c = '_') ∧
    (∀ d ∈ rest, inSegment d) ∧ ∀ segment ∈ segments, IsSegment segment

theorem isIdentifier_iff {s : String} : isIdentifier s ↔ IsIdentifier s := by
  unfold isIdentifier IsIdentifier
  cases s.toList with
  | nil => simp [isIdentifierChars]
  | cons c rest => simp [isIdentifierChars]

theorem isModelNameTail_iff {fresh : Bool} {cs : List Char} :
    isModelNameTail fresh cs ↔ ∃ rest, ∃ segments : List (List Char), cs = rest ++ segments.flatMap ('.' :: ·) ∧
      (fresh → rest ≠ []) ∧ (∀ d ∈ rest, inSegment d) ∧ ∀ segment ∈ segments, IsSegment segment := by
  induction cs generalizing fresh with
  | nil =>
    constructor
    · intro h
      exact ⟨[], [], rfl, fun hfresh => by simp [isModelNameTail, hfresh] at h, nofun, nofun⟩
    · rintro ⟨rest, segments, hcs, hfresh, -, -⟩
      have hrest : rest = [] := (List.append_eq_nil_iff.mp hcs.symm).1
      simpa [isModelNameTail] using fun h => hfresh h hrest
  | cons c cs ih =>
    unfold isModelNameTail
    by_cases hdot : c = '.'
    · subst hdot
      rw [if_pos rfl, Bool.and_eq_true, ih]
      constructor
      · -- The dot ends an empty rest, and what follows is the first segment.
        rintro ⟨hfresh, rest, segments, rfl, hrest, hin, hsegments⟩
        refine ⟨[], rest :: segments, rfl, fun h => by simp [h] at hfresh, nofun, fun segment hsegment => ?_⟩
        rcases List.mem_cons.mp hsegment with rfl | hsegment
        exacts [⟨hrest rfl, hin⟩, hsegments segment hsegment]
      · rintro ⟨rest, segments, hcs, hfresh, hin, hsegments⟩
        cases rest with
        | cons d rest =>
          cases hcs
          exact absurd (hin '.' List.mem_cons_self) (by decide)
        | nil =>
          cases segments with
          | nil => cases hcs
          | cons segment segments =>
            obtain ⟨hsegment, hsegments⟩ := List.forall_mem_cons.mp hsegments
            refine ⟨?_, segment, segments, (List.cons.inj hcs).2, fun _ => hsegment.1, hsegment.2, hsegments⟩
            simpa using fun h => hfresh h rfl
    · rw [if_neg hdot, Bool.and_eq_true, ih]
      constructor
      · rintro ⟨hc, rest, segments, rfl, -, hin, hsegments⟩
        exact ⟨c :: rest, segments, rfl, fun _ => List.cons_ne_nil _ _, List.forall_mem_cons.mpr ⟨hc, hin⟩, hsegments⟩
      · rintro ⟨rest, segments, hcs, -, hin, hsegments⟩
        cases rest with
        | nil =>
          cases segments with
          | nil => cases hcs
          | cons segment segments => exact absurd (List.cons.inj hcs).1 hdot
        | cons d rest =>
          cases hcs
          obtain ⟨hc, hin⟩ := List.forall_mem_cons.mp hin
          exact ⟨hc, rest, segments, rfl, nofun, hin, hsegments⟩

theorem isModelName_iff {s : String} : isModelName s ↔ IsModelName s := by
  unfold isModelName IsModelName
  cases s.toList with
  | nil => simp [isModelNameChars]
  | cons c cs =>
    rw [isModelNameChars, Bool.and_eq_true, Bool.or_eq_true, decide_eq_true_iff, isModelNameTail_iff]
    constructor
    · rintro ⟨hc, rest, segments, rfl, -, hin, hsegments⟩
      exact ⟨c, rest, segments, rfl, hc, hin, hsegments⟩
    · rintro ⟨c', rest, segments, hcs, hc, hin, hsegments⟩
      cases hcs
      exact ⟨hc, rest, segments, rfl, nofun, hin, hsegments⟩

end Text

namespace Keyed
variable {α : Type}

/-! ### Maps with the same entries -/

theorem mem_entries_iff {m : Keyed α} {key : String} {value : α} :
    (key, value) ∈ m.entries ↔ m.find? key = some value := by
  refine ⟨fun h => ?_, Registry.mem_of_lookup⟩
  obtain ⟨entries, hincreasing⟩ := m
  unfold find?
  dsimp only at h ⊢
  induction entries with
  | nil => cases h
  | cons e rest ih =>
    obtain ⟨k, v⟩ := e
    obtain ⟨hfirst, hrest⟩ := List.pairwise_cons.mp hincreasing
    unfold lookup
    rcases List.mem_cons.mp h with h | h
    · cases h
      rw [if_pos rfl]
    · have hne : k ≠ key := fun hk => String.lt_irrefl _ (hk ▸ hfirst _ h)
      rw [if_neg hne]
      exact ih hrest h

/-- A map is known by what is found in it. -/
theorem eq_of_find? {m m' : Keyed α} (h : ∀ key, m.find? key = m'.find? key) : m = m' := by
  have hmem : ∀ e, e ∈ m.entries ↔ e ∈ m'.entries := fun e => by
    rw [show e = (e.1, e.2) from rfl, mem_entries_iff, mem_entries_iff, h]
  have hnodup : ∀ m : Keyed α, m.entries.Nodup := fun m =>
    m.increasing.imp fun {a b} (hlt : a.1 < b.1) (heq : a = b) => String.lt_irrefl _ (heq ▸ hlt)
  have hentries : m.entries = m'.entries :=
    List.Perm.eq_of_pairwise (fun a b _ _ hab hba => absurd (String.lt_trans hab hba) (String.lt_irrefl _))
      m.increasing m'.increasing ((List.perm_ext_iff_of_nodup (hnodup m) (hnodup m')).mpr hmem)
  obtain ⟨entries, _⟩ := m
  obtain ⟨entries', _⟩ := m'
  cases hentries
  rfl

theorem find?_insert (m : Keyed α) (key other : String) (value : α) :
    (m.insert key value).find? other = if key = other then some value else m.find? other := by
  split
  · rename_i heq
    rw [← heq, find?_insert_self]
  · rename_i hne
    exact find?_insert_of_ne m hne value

theorem insert_comm (m : Keyed α) {key key' : String} (h : key ≠ key') (value value' : α) :
    (m.insert key value).insert key' value' = (m.insert key' value').insert key value := by
  refine eq_of_find? fun other => ?_
  simp only [find?_insert]
  by_cases hkey : key = other
  · rw [if_pos hkey, if_pos hkey, if_neg (hkey ▸ h.symm)]
  · rw [if_neg hkey, if_neg hkey]

theorem mem_keys_iff {m : Keyed α} {key : String} : key ∈ m.keys ↔ (m.find? key).isSome := by
  rw [Option.isSome_iff_exists]
  constructor
  · intro h
    obtain ⟨⟨k, value⟩, he, rfl⟩ := List.mem_map.mp h
    exact ⟨value, mem_entries_iff.mp he⟩
  · rintro ⟨value, h⟩
    exact List.mem_map.mpr ⟨(key, value), mem_entries_iff.mpr h, rfl⟩

theorem mem_keys_insertNew {m : Keyed α} {key other : String} {value : α} :
    other ∈ (m.insertNew key value).keys ↔ other = key ∨ other ∈ m.keys := by
  rw [mem_keys_iff, mem_keys_iff]
  unfold insertNew
  split
  · rename_i hkey
    exact ⟨.inr, fun h => h.elim (fun h => h ▸ hkey) id⟩
  · rw [find?_insert]
    by_cases heq : key = other
    · simp [heq]
    · simp [heq, Ne.symm heq]

end Keyed

/-- The fields of a completed model are its own and the ones that every model has. -/
theorem Model.mem_keys_complete {m : Model} {name : String} :
    name ∈ m.complete.fields.keys ↔
      name = "id" ∨ (m.parentStore ∧ name = "parent_path") ∨ name ∈ m.fields.keys := by
  have hkeys : (m.fields.mapValues fun name f => { f with name := name }).keys = m.fields.keys := by
    simp [Keyed.keys, Keyed.mapValues, Function.comp_def]
  unfold complete
  dsimp only
  split
  · rename_i hstore
    rw [Keyed.mem_keys_insertNew, Keyed.mem_keys_insertNew, hkeys]
    simp only [hstore, true_and]
    exact or_left_comm
  · rename_i hstore
    rw [Keyed.mem_keys_insertNew, hkeys]
    simp [hstore]

namespace Registry
variable {r r' : Registry} {m m' : Model}

/-! ### One call -/

/-- What a model needs to be registered: names in their patterns, and a name that is free. -/
structure Registrable (r : Registry) (m : Model) : Prop where
  name : Text.IsModelName m.name
  table : Text.IsIdentifier m.table
  fields : ∀ field ∈ m.fields.keys, Text.IsIdentifier field
  fresh : r.model? m.name = none

/-- The names of the fields that are added are identifiers, so only the model's own names matter. -/
theorem isIdentifier_keys_complete :
    (∀ field ∈ m.complete.fields.keys, Text.isIdentifier field) ↔ ∀ field ∈ m.fields.keys, Text.IsIdentifier field := by
  constructor
  · intro h field hfield
    exact Text.isIdentifier_iff.mp (h field (Model.mem_keys_complete.mpr (.inr (.inr hfield))))
  · intro h field hfield
    rcases Model.mem_keys_complete.mp hfield with rfl | ⟨-, rfl⟩ | hfield
    · decide
    · decide
    · exact Text.isIdentifier_iff.mpr (h field hfield)

theorem registrable_iff_admits : r.Registrable m ↔ r.Admits m := by
  have hfresh : r.models.contains m.name = false ↔ r.model? m.name = none := by
    rw [Keyed.contains, Registry.model?, Option.isSome_eq_false_iff, Option.isNone_iff_eq_none]
  exact ⟨fun h => ⟨Text.isModelName_iff.mpr h.name, Text.isIdentifier_iff.mpr h.table, hfresh.mpr h.fresh,
      isIdentifier_keys_complete.mpr h.fields⟩,
    fun h => ⟨Text.isModelName_iff.mp h.name, Text.isIdentifier_iff.mp h.table,
      isIdentifier_keys_complete.mp h.fields, hfresh.mp h.fresh⟩⟩

/-- A call that succeeds puts the completed model under its name and does nothing else, and one that fails does
    nothing. -/
theorem attempt_eq (r : Registry) (m : Model) :
    (r.Registrable m ∧ r.attempt m = (.ok (), { r with models := r.models.insert m.name m.complete })) ∨
      (¬r.Registrable m ∧ ∃ fault, r.attempt m = (.error (.schema fault), r)) := by
  rw [registrable_iff_admits]
  exact attempt_cases r m

theorem attempt_eq_ok_iff :
    r.attempt m = (.ok (), r') ↔ r.Registrable m ∧ r' = { r with models := r.models.insert m.name m.complete } := by
  rcases attempt_eq r m with ⟨hm, heq⟩ | ⟨hm, fault, heq⟩ <;> rw [heq] <;> simp [hm, eq_comm]

theorem register_eq_ok_iff :
    r.register m = .ok r' ↔ r.Registrable m ∧ r' = { r with models := r.models.insert m.name m.complete } := by
  rw [← attempt_eq_ok_iff, register]
  rcases r.attempt m with ⟨_ | _, _⟩ <;> simp

theorem register_eq_error_iff {e : Error} : r.register m = .error e ↔ (r.attempt m).1 = .error e := by
  unfold register
  rcases r.attempt m with ⟨_ | _, _⟩ <;> simp

/-! ### One call after another -/

/-- The registry after some calls, successful or not. -/
def attempts (r : Registry) (ms : List Model) : Registry := ms.foldl (fun r m => (r.attempt m).2) r

theorem attempts_append (r : Registry) (ms ms' : List Model) :
    r.attempts (ms ++ ms') = (r.attempts ms).attempts ms' := List.foldl_append

/-- What holds of a model that is kept under a name. -/
structure Entry (name : String) (m : Model) : Prop where
  name_eq : m.name = name
  isModelName : Text.IsModelName name
  isIdentifier_table : Text.IsIdentifier m.table
  fields : ∀ field f, m.field? field = some f → Text.IsIdentifier field ∧ f.name = field
  id : (m.field? "id").isSome
  path : m.parentStore → (m.field? "parent_path").isSome

theorem Registrable.entry (h : r.Registrable m) : Entry m.name m.complete where
  name_eq := rfl
  isModelName := h.name
  isIdentifier_table := h.table
  fields field f hf := by
    have hmem := Keyed.mem_entries_iff.mpr hf
    have hkey := isIdentifier_keys_complete.mpr h.fields field (List.mem_map_of_mem (f := Prod.fst) hmem)
    exact ⟨Text.isIdentifier_iff.mp hkey, name_of_mem_complete hmem⟩
  id := Keyed.mem_keys_iff.mp (Model.mem_keys_complete.mpr (.inl rfl))
  path hstore := Keyed.mem_keys_iff.mp (Model.mem_keys_complete.mpr (.inr (.inl ⟨hstore, rfl⟩)))

/-- Every model of the registry is an entry under its name. -/
def Entries (r : Registry) : Prop := ∀ name m, r.model? name = some m → Entry name m

theorem Entries.attempt (h : r.Entries) (m : Model) : (r.attempt m).2.Entries := by
  rcases attempt_eq r m with ⟨hm, heq⟩ | ⟨-, fault, heq⟩
  · rw [heq]
    intro name m' hm'
    have hfound : (r.models.insert m.name m.complete).find? name = some m' := hm'
    rw [Keyed.find?_insert] at hfound
    split at hfound
    · rename_i hname
      cases hfound
      exact hname ▸ hm.entry
    · exact h name m' hfound
  · rw [heq]
    exact h

theorem Entries.attempts (h : r.Entries) (ms : List Model) : (r.attempts ms).Entries := by
  induction ms generalizing r with
  | nil => exact h
  | cons m rest ih => exact ih (h.attempt m)

/-! ### What the calls put in -/

/-- One of some calls, made one after another, succeeded and put the entry under the name. -/
def Puts (r : Registry) (ms : List Model) (name : String) (entry : Model) : Prop :=
  ∃ before m after, ms = before ++ m :: after ∧ ((r.attempts before).attempt m).1 = .ok () ∧
    m.name = name ∧ m.complete = entry

theorem puts_cons {rest : List Model} {name : String} {entry : Model} :
    r.Puts (m :: rest) name entry ↔
      ((r.attempt m).1 = .ok () ∧ m.name = name ∧ m.complete = entry) ∨ (r.attempt m).2.Puts rest name entry := by
  constructor
  · rintro ⟨_ | ⟨first, before⟩, m', after, heq, hput⟩
    · cases heq
      exact .inl hput
    · cases heq
      exact .inr ⟨before, m', after, rfl, hput⟩
  · rintro (hput | ⟨before, m', after, rfl, hput⟩)
    · exact ⟨[], m, rest, rfl, hput⟩
    · exact ⟨m :: before, m', after, rfl, hput⟩

/-- A call leaves what was there, and puts in its own model if it succeeds. -/
theorem model?_attempt {name : String} {entry : Model} :
    (r.attempt m).2.model? name = some entry ↔
      r.model? name = some entry ∨ ((r.attempt m).1 = .ok () ∧ m.name = name ∧ m.complete = entry) := by
  rcases attempt_eq r m with ⟨hm, heq⟩ | ⟨-, fault, heq⟩ <;> rw [heq]
  · have hmodel : Registry.model? { r with models := r.models.insert m.name m.complete } name =
        if m.name = name then some m.complete else r.model? name := Keyed.find?_insert _ _ _ _
    rw [hmodel]
    split
    · rename_i hname
      subst hname
      simp [hm.fresh]
    · rename_i hname
      simp [hname]
  · simp

/-- What is under a name was there before the calls, or one of them put it there. -/
theorem model?_attempts {ms : List Model} {name : String} {entry : Model} :
    (r.attempts ms).model? name = some entry ↔ r.model? name = some entry ∨ r.Puts ms name entry := by
  induction ms generalizing r with
  | nil => exact ⟨.inl, fun h => h.elim id fun ⟨before, _, _, heq, _⟩ => by cases before <;> cases heq⟩
  | cons m rest ih =>
    have hrest : (r.attempts (m :: rest)).model? name = ((r.attempt m).2.attempts rest).model? name := rfl
    rw [hrest, ih, model?_attempt, puts_cons, or_assoc]

/-! ### The order of the calls -/

/-- Whether a model can be registered does not depend on models of other names. -/
theorem registrable_insert (hne : m.name ≠ m'.name) :
    Registrable { r with models := r.models.insert m.name m.complete } m' ↔ r.Registrable m' := by
  have hfresh : Registry.model? { r with models := r.models.insert m.name m.complete } m'.name = r.model? m'.name :=
    Keyed.find?_insert_of_ne r.models hne m.complete
  exact ⟨fun h => ⟨h.name, h.table, h.fields, hfresh ▸ h.fresh⟩, fun h => ⟨h.name, h.table, h.fields, hfresh ▸ h.fresh⟩⟩

theorem Registrable.attempt (h : r.Registrable m) :
    (r.attempt m).2 = { r with models := r.models.insert m.name m.complete } := by
  rcases attempt_eq r m with ⟨-, heq⟩ | ⟨hm, -⟩
  · rw [heq]
  · exact absurd h hm

theorem attempt_of_not_registrable (h : ¬r.Registrable m) : (r.attempt m).2 = r := by
  rcases attempt_eq r m with ⟨hm, -⟩ | ⟨-, e, heq⟩
  · exact absurd hm h
  · rw [heq]

theorem attempt_comm (r : Registry) (hne : m.name ≠ m'.name) :
    ((r.attempt m).2.attempt m').2 = ((r.attempt m').2.attempt m).2 := by
  by_cases hm : r.Registrable m <;> by_cases hm' : r.Registrable m'
  · rw [hm.attempt, hm'.attempt, ((registrable_insert hne).mpr hm').attempt,
      ((registrable_insert hne.symm).mpr hm).attempt]
    exact congrArg (fun models => { r with models := models }) (r.models.insert_comm hne m.complete m'.complete)
  · rw [attempt_of_not_registrable hm', hm.attempt, attempt_of_not_registrable (mt (registrable_insert hne).mp hm')]
  · rw [attempt_of_not_registrable hm, hm'.attempt, attempt_of_not_registrable (mt (registrable_insert hne.symm).mp hm)]
  · rw [attempt_of_not_registrable hm, attempt_of_not_registrable hm', attempt_of_not_registrable hm]

/-- The same models in another order give the same registry. -/
theorem attempts_perm (r : Registry) {ms ms' : List Model} (h : ms.Perm ms') (hnames : (ms.map (·.name)).Nodup) :
    r.attempts ms = r.attempts ms' := by
  refine h.foldl_eq' (fun m hm m' hm' r => ?_) r
  by_cases heq : m = m'
  · rw [heq]
  · exact attempt_comm r fun hname => heq (List.inj_on_of_nodup_map hnames hm hm' hname)

theorem not_registrable_iff :
    ¬r.Registrable m ↔ ¬Text.IsModelName m.name ∨ ¬Text.IsIdentifier m.table ∨
      (∃ field ∈ m.fields.keys, ¬Text.IsIdentifier field) ∨ ∃ entry, r.model? m.name = some entry := by
  have hparts : r.Registrable m ↔ Text.IsModelName m.name ∧ Text.IsIdentifier m.table ∧
      (∀ field ∈ m.fields.keys, Text.IsIdentifier field) ∧ r.model? m.name = none :=
    ⟨fun h => ⟨h.name, h.table, h.fields, h.fresh⟩, fun ⟨hname, htable, hfields, hfresh⟩ => ⟨hname, htable, hfields, hfresh⟩⟩
  simp only [hparts, not_and_or, not_forall, exists_prop, Option.ne_none_iff_exists']

/-- After any calls, each model stands under its own name, with the names of its table and fields in their patterns and
    with the fields that every model has, and the models are those of the calls that succeeded, completed. A call fails
    just on a bad name or a name that an earlier call took, and the registry is as before then. A call that succeeds puts
    its model, completed, under its name and leaves the rest as it was. Calls for the same models in another order, no
    two with one name, lead to the same registry, and checking it ends the same way. -/
theorem attempts_keep_entries (ms : List Model) :
    let r := Registry.attempts {} ms
    r.Entries ∧ (∀ name entry, r.model? name = some entry ↔ Puts {} ms name entry) ∧
      (∀ m,
        ((∃ e, r.register m = .error e) ↔ ∃ e, (r.attempt m).1 = .error e) ∧
        ((∃ e, (r.attempt m).1 = .error e) ↔
          ¬Text.IsModelName m.name ∨ ¬Text.IsIdentifier m.table ∨ (∃ field ∈ m.fields.keys, ¬Text.IsIdentifier field) ∨
            ∃ entry, Puts {} ms m.name entry) ∧
        (∀ e, (r.attempt m).1 = .error e → (r.attempt m).2 = r ∧ Registry.attempts {} (ms ++ [m]) = r) ∧
        ((r.attempt m).1 = .ok () → r.register m = .ok (r.attempt m).2 ∧ Registry.attempts {} (ms ++ [m]) = (r.attempt m).2 ∧
          (r.attempt m).2 = { r with models := r.models.insert m.name m.complete } ∧
          (r.attempt m).2.model? m.name = some m.complete ∧
          ∀ name ≠ m.name, (r.attempt m).2.model? name = r.model? name)) ∧
      ∀ ms', (ms.map (·.name)).Nodup → (ms'.map (·.name)).Nodup → (∀ m, m ∈ ms ↔ m ∈ ms') →
        Registry.attempts {} ms' = r ∧ (Registry.attempts {} ms').validate = r.validate := by
  intro r
  have hputs : ∀ name entry, r.model? name = some entry ↔ Puts {} ms name entry := fun name entry => by
    rw [model?_attempts]
    exact or_iff_right nofun
  have happend : ∀ m, Registry.attempts {} (ms ++ [m]) = (r.attempt m).2 := fun m => attempts_append {} ms [m]
  refine ⟨Entries.attempts (r := {}) nofun ms, hputs, fun m => ?_, fun ms' hnames hnames' hmem => ?_⟩
  · have hfails : (∃ e, (r.attempt m).1 = .error e) ↔ ¬r.Registrable m := by
      rcases attempt_eq r m with ⟨hm, heq⟩ | ⟨hm, fault, heq⟩ <;> rw [heq] <;> simp [hm]
    refine ⟨exists_congr fun e => register_eq_error_iff, ?_, fun e he => ?_, fun hok => ?_⟩
    · rw [hfails, not_registrable_iff]
      simp only [hputs]
    · have hsame : (r.attempt m).2 = r := attempt_of_not_registrable (hfails.mp ⟨e, he⟩)
      exact ⟨hsame, (happend m).trans hsame⟩
    · obtain ⟨hm, hregistry⟩ := attempt_eq_ok_iff.mp (Prod.ext hok rfl : r.attempt m = (.ok (), (r.attempt m).2))
      rw [happend, hregistry]
      exact ⟨register_eq_ok_iff.mpr ⟨hm, rfl⟩, rfl, rfl, Keyed.find?_insert_self ..,
        fun name hname => Keyed.find?_insert_of_ne r.models hname.symm m.complete⟩
  · have hperm : ms.Perm ms' :=
      (List.perm_ext_iff_of_nodup (List.Nodup.of_map _ hnames) (List.Nodup.of_map _ hnames')).mpr hmem
    have heq := attempts_perm {} hperm hnames
    exact ⟨heq.symm, congrArg validate heq.symm⟩

end Registry

/-- Rooms with rooms in them. -/
def roomModel : Model :=
  ({ name := "room", table := "room", parentStore := true } : Model).withField (Field.many2one "parent_id" "room")

/-- Desks in rooms. -/
def deskModel : Model := (Model.ofTable "desk" "desk").withField (Field.many2one "room_id" "room")

/-- A model whose name has a capital. -/
def shelfModel : Model := { name := "Shelf", table := "shelf" }

/-- Desks and rooms are registered; a shelf is refused for its name, and a second desk for the first. -/
theorem Registry.attempts_keep_entries_rooms :
    let r := Registry.attempts {} [deskModel, roomModel]
    r.Entries ∧ Registry.Puts {} [deskModel, roomModel] "desk" deskModel.complete ∧
      r.model? "desk" = some deskModel.complete ∧
      ((Registry.attempts {} [deskModel]).attempt roomModel).1 = .ok () ∧
      r.model? "room" = some roomModel.complete ∧ r.model? "desk" = (Registry.attempts {} [deskModel]).model? "desk" ∧
      (∃ e, (r.attempt shelfModel).1 = .error e) ∧ (∃ e, (r.attempt deskModel).1 = .error e) ∧
      (r.attempt deskModel).2 = r ∧ Registry.attempts {} [deskModel, roomModel, shelfModel] = r ∧
      Registry.attempts {} [shelfModel, roomModel, deskModel] = Registry.attempts {} [deskModel, roomModel, shelfModel] ∧
      (Registry.attempts {} [shelfModel, roomModel, deskModel]).validate = .ok () := by
  intro r
  have hroom : ((Registry.attempts {} [deskModel]).attempt roomModel).1 = .ok () := rfl
  have hshelf : (r.attempt shelfModel).1 = .error (.schema (.badModelName "Shelf")) := rfl
  have hput : Registry.Puts {} [deskModel, roomModel] "desk" deskModel.complete :=
    ⟨[], deskModel, [roomModel], rfl, rfl, rfl, rfl⟩
  obtain ⟨-, -, hfirst, -⟩ := attempts_keep_entries [deskModel]
  obtain ⟨-, -, -, hstores⟩ := hfirst roomModel
  obtain ⟨-, hroomCall, -, hroomFound, hothers⟩ := hstores hroom
  obtain ⟨hentries, hputs, hcall, -⟩ := attempts_keep_entries [deskModel, roomModel]
  obtain ⟨-, -, hshelfKept, -⟩ := hcall shelfModel
  obtain ⟨-, hdeskFails, hdeskKept, -⟩ := hcall deskModel
  obtain ⟨e, hdesk⟩ := hdeskFails.mpr (.inr (.inr (.inr ⟨_, hput⟩)))
  obtain ⟨-, -, -, horder⟩ := attempts_keep_entries [deskModel, roomModel, shelfModel]
  obtain ⟨hsame, hcheck⟩ := horder [deskModel, roomModel, shelfModel].reverse (by decide) (by decide) fun m =>
    List.mem_reverse.symm
  have hr : r = ((Registry.attempts {} [deskModel]).attempt roomModel).2 := hroomCall
  exact ⟨hentries, hput, (hputs _ _).mpr hput, hroom, hr ▸ hroomFound, hr ▸ hothers "desk" (by decide), ⟨_, hshelf⟩,
    ⟨e, hdesk⟩, (hdeskKept e hdesk).1, (hshelfKept _ hshelf).2, hsame, hcheck.trans rfl⟩

end RecordFilter
