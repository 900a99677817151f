import RecordFilter.Config
import RecordFilter.Proofs.Json.Members
import RecordFilter.Proofs.Json.Reading

/-! Models and configurations in JSON. What is written is read as the same value again, with members left out where
    they have their defaults; and a model that was completed stays as it is when it is written, read and completed
    again, so that registering it makes no difference. -/

namespace RecordFilter
open Json

/-! ### Optional members -/

section
variable {α : Type} (key : String) (write : α → Json) (o : Option α)

theorem fst_of_mem_optionalMember {e : String × Json} (h : e ∈ optionalMember key write o) : e.1 = key := by
  cases o with
  | none => cases h
  | some x => rw [List.mem_singleton.mp h]

@[simp]
theorem reverse_optionalMember : (optionalMember key write o).reverse = optionalMember key write o := by
  cases o <;> rfl

@[simp]
theorem lookup_optionalMember (other : String) :
    Keyed.lookup other (optionalMember key write o) = if key = other then o.map write else none := by
  cases o with
  | none => simp [optionalMember, Keyed.lookup]
  | some x => rfl

end

/-! ### Records -/

theorem FieldType.ofSource?_name (t : FieldType) : ofSource? (Source.ofJson (.str t.name)) = some t := ofName?_name t

section
variable {ms : Members} {key expected text : String} {b : Bool}

theorem get_text {missing : Option String} (h : ms.find? key = some (.str text)) :
    ms.get key expected Source.str? missing = .ok text := Members.get_of_find? h rfl

theorem get_flag {missing : Option Bool} (h : ms.find? key = some (.bool b)) :
    ms.get key expected Source.bool? missing = .ok b := Members.get_of_find? h rfl

theorem get_optionalText {o : Option String} (h : ms.find? key = (o.map Json.str).map Source.ofJson) :
    ms.get key expected (Source.optional? Source.str?) (some none) = .ok o :=
  Members.get_optional h (fun _ _ => rfl) nofun

end

theorem Relation.ofSource_toJson (r : Relation) : ofSource (Source.ofJson r.toJson) = .ok r := by
  obtain ⟨ms, hms, hfind⟩ : ∃ ms, Members.ofSource keys (Source.ofJson r.toJson) = .ok ms ∧ _ :=
    Members.ofSource_ofMembers (by simp [keys])
  unfold ofSource
  rw [hms]
  simp only [get_text (hfind "table"), get_text (hfind "column1"), get_text (hfind "column2"), bind, Except.bind]
  rfl

theorem Relation.ofJson_toJson_ne_null (r : Relation) : Source.ofJson r.toJson ≠ .null := by
  simp [toJson, ofMembers, Source.ofJson]

theorem Field.ofSource_toJson (f : Field) : ofSource (Source.ofJson f.toJson) = .ok f := by
  obtain ⟨ms, hms, hfind⟩ : ∃ ms, Members.ofSource keys (Source.ofJson f.toJson) = .ok ms ∧ _ :=
    Members.ofSource_ofMembers (by
      simp only [List.forall_mem_append]
      refine ⟨⟨⟨⟨by simp [keys], ?_⟩, ?_⟩, ?_⟩, ?_⟩ <;>
      · intro e he
        rw [fst_of_mem_optionalMember _ _ _ he]
        decide)
  obtain ⟨hname, htype, hcomodel, hstore, htranslate, hrelation, hinverse, hsearch, hautoJoin, hattachment⟩ :
      ms.find? "name" = some (.str f.name) ∧ ms.find? "type" = some (.str f.type.name) ∧
      ms.find? "comodel" = (f.comodel.map Json.str).map Source.ofJson ∧ ms.find? "store" = some (.bool f.store) ∧
      ms.find? "translate" = some (.bool f.translate) ∧
      ms.find? "relation" = (f.relation.map Relation.toJson).map Source.ofJson ∧
      ms.find? "inverse_name" = (f.inverseName.map Json.str).map Source.ofJson ∧
      ms.find? "search" = (f.search.map Json.str).map Source.ofJson ∧
      ms.find? "auto_join" = some (.bool f.autoJoin) ∧ ms.find? "attachment" = some (.bool f.attachment) := by
    simp [hfind, Keyed.lookup_append, Keyed.lookup, Source.ofJson]
  have hrelation' : ms.get "relation" "a relation table or null"
      (Source.optional? fun s => (Relation.ofSource s).toOption) (some none) = .ok f.relation :=
    Members.get_optional hrelation (fun r _ => by rw [r.ofSource_toJson]; rfl) Relation.ofJson_toJson_ne_null
  unfold ofSource
  rw [hms]
  simp only [get_text hname, Members.get_of_find? htype f.type.ofSource?_name, get_optionalText hcomodel,
    get_flag hstore, get_flag htranslate, hrelation', get_optionalText hinverse, get_optionalText hsearch,
    get_flag hautoJoin, get_flag hattachment, bind, Except.bind]
  rfl

theorem Model.ofJson_toJson (m : Model) : ofJson m.toJson = .ok m := by
  obtain ⟨ms, hms, hfind⟩ : ∃ ms, Members.ofSource keys (Source.ofJson m.toJson) = .ok ms ∧ _ :=
    Members.ofSource_ofMembers (by
      simp only [List.forall_mem_append]
      refine ⟨by simp [keys], fun e he => ?_⟩
      rw [fst_of_mem_optionalMember _ _ _ he]
      decide)
  obtain ⟨hname, htable, hfields, hinherits, hparentName, hparentStore, hactiveName, hrecName⟩ :
      ms.find? "name" = some (.str m.name) ∧ ms.find? "table" = some (.str m.table) ∧
      ms.find? "fields" = some (Source.ofJson (.ofMembers (m.fields.entries.map fun e => (e.1, e.2.toJson)))) ∧
      ms.find? "inherits" = some (Source.ofJson (.ofMembers (m.inherits.entries.map fun e => (e.1, .str e.2)))) ∧
      ms.find? "parent_name" = some (.str m.parentName) ∧ ms.find? "parent_store" = some (.bool m.parentStore) ∧
      ms.find? "active_name" = (m.activeName.map Json.str).map Source.ofJson ∧
      ms.find? "rec_name" = some (.str m.recName) := by
    simp [hfind, Keyed.lookup_append, Keyed.lookup, Source.ofJson]
  have hfields' : ms.get "fields" "an object of fields" (fun s => (Source.map Field.ofSource s).toOption)
      (some .empty) = .ok m.fields :=
    Members.get_of_find? hfields (by rw [Source.map_ofMembers m.fields fun e _ => e.2.ofSource_toJson]; rfl)
  have hinherits' : ms.get "inherits" "an object of strings" (fun s => (Source.map textEntry s).toOption)
      (some .empty) = .ok m.inherits :=
    Members.get_of_find? hinherits (by rw [Source.map_ofMembers m.inherits fun _ _ => rfl]; rfl)
  unfold ofJson ofSource
  rw [hms]
  simp only [get_text hname, get_text htable, hfields', hinherits', get_text hparentName, get_flag hparentStore,
    get_optionalText hactiveName, get_text hrecName, bind, Except.bind]
  rfl

theorem Config.ofJson_toJson (c : Config) : ofJson c.toJson = .ok c := by
  obtain ⟨ms, hms, hfind⟩ : ∃ ms, Members.ofSource keys (Source.ofJson c.toJson) = .ok ms ∧ _ :=
    Members.ofSource_ofMembers (by simp [keys])
  have hdir : ms.get "schema_dir" "a string or null" (Source.optional? Source.str?) (some none) = .ok c.schemaDir := by
    cases hc : c.schemaDir with
    | none => exact Members.get_of_find? (s := .null) (by simp [hfind, Keyed.lookup, hc, Source.ofJson]) rfl
    | some dir => exact Members.get_of_find? (s := .str dir) (by simp [hfind, Keyed.lookup, hc, Source.ofJson]) rfl
  have hiterations : ms.get "hierarchy_max_iterations" "a natural" Source.natural? (some 1000) = .ok c.maxIterations :=
    Members.get_of_find? (s := .int c.maxIterations) (by simp [hfind, Keyed.lookup, Source.ofJson])
      (by simp [Source.natural?])
  obtain ⟨hlang, hunaccent, hactiveTest, hattachmentTable, hlogLevel⟩ :
      ms.find? "lang" = some (.str c.lang) ∧ ms.find? "unaccent" = some (.bool c.unaccent) ∧
      ms.find? "active_test" = some (.bool c.activeTest) ∧
      ms.find? "attachment_table" = some (.str c.attachmentTable) ∧
      ms.find? "log_level" = some (.str c.logLevel) := by
    simp [hfind, Keyed.lookup, Source.ofJson]
  unfold ofJson ofSource
  rw [hms]
  simp only [hdir, get_text hlang, get_flag hunaccent, get_flag hactiveTest, hiterations, get_text hattachmentTable,
    get_text hlogLevel, bind, Except.bind]
  rfl

/-! ### Completed models -/

theorem Keyed.insertNew_of_contains {α : Type} {m : Keyed α} {key : String} (h : m.contains key) (value : α) :
    m.insertNew key value = m := if_pos h

theorem Keyed.mapValues_eq_self {α : Type} {m : Keyed α} {f : String → α → α}
    (h : ∀ key value, m.find? key = some value → f key value = value) : m.mapValues f = m := by
  refine eq_of_find? fun key => ?_
  rw [find?_mapValues]
  cases hvalue : m.find? key with
  | none => rfl
  | some value => exact congrArg some (h key value hvalue)

/-- Completing a model twice is completing it once. -/
theorem Model.complete_complete (m : Model) : m.complete.complete = m.complete := by
  have hnames : m.complete.fields.mapValues (fun name f => { f with name := name }) = m.complete.fields := by
    refine Keyed.mapValues_eq_self fun name f hf => ?_
    obtain rfl : f.name = name := Registry.name_of_mem_complete (Keyed.mem_entries_iff.mpr hf)
    rfl
  have hid : m.complete.fields.contains "id" := Keyed.mem_keys_iff.mp (mem_keys_complete.mpr (.inl rfl))
  have hpath : m.parentStore → m.complete.fields.contains "parent_path" := fun hstore =>
    Keyed.mem_keys_iff.mp (mem_keys_complete.mpr (.inr (.inl ⟨hstore, rfl⟩)))
  have hfields : m.complete.complete.fields = m.complete.fields := by
    rw [complete.eq_def m.complete]
    dsimp only
    rw [hnames, Keyed.insertNew_of_contains hid]
    split
    · rename_i hstore
      exact Keyed.insertNew_of_contains (hpath hstore) _
    · rfl
  rw [show m.complete.complete = { m.complete with fields := m.complete.complete.fields } from rfl, hfields]

theorem Registry.register_complete (r : Registry) (m : Model) : r.register m.complete = r.register m := by
  have hattempt : r.attempt m.complete = r.attempt m := by
    unfold attempt
    rw [m.complete_complete]
    rfl
  rw [register, register, hattempt]

/-! ### Texts -/

theorem Json.exact_ofMembers {members : List (String × Json)} (h : ∀ e ∈ members, e.2.Exact) :
    (ofMembers members).Exact :=
  exactMembers_of_forall fun e he => h e (Keyed.of_mem_ofList he)

theorem exact_of_mem_optionalMember {α : Type} {key : String} {write : α → Json} {o : Option α}
    (h : ∀ x, (write x).Exact) : ∀ e ∈ optionalMember key write o, e.2.Exact := by
  cases o with
  | none => nofun
  | some x => exact List.forall_mem_singleton.mpr (h x)

theorem Relation.exact_toJson (r : Relation) : r.toJson.Exact := exact_ofMembers (by simp [Exact])

theorem Field.exact_toJson (f : Field) : f.toJson.Exact := by
  have text : ∀ key o, ∀ e ∈ optionalMember key Json.str o, e.2.Exact := fun _ _ =>
    exact_of_mem_optionalMember fun _ => trivial
  refine exact_ofMembers ?_
  simp only [List.forall_mem_append]
  exact ⟨⟨⟨⟨by simp [Exact], text _ _⟩, exact_of_mem_optionalMember Relation.exact_toJson⟩, text _ _⟩, text _ _⟩

theorem Model.exact_toJson (m : Model) : m.toJson.Exact := by
  have hfields : (Json.ofMembers (m.fields.entries.map fun e => (e.1, e.2.toJson))).Exact := by
    exact exact_ofMembers (List.forall_mem_map.mpr fun e _ => e.2.exact_toJson)
  have hinherits : (Json.ofMembers (m.inherits.entries.map fun e => (e.1, .str e.2))).Exact :=
    exact_ofMembers (List.forall_mem_map.mpr fun e _ => trivial)
  refine exact_ofMembers ?_
  simp only [List.forall_mem_append]
  refine ⟨?_, exact_of_mem_optionalMember fun _ => trivial⟩
  simp [hfields, hinherits, Exact]

theorem Config.exact_toJson {c : Config} (h : c.maxIterations < unsignedLimit) : c.toJson.Exact := by
  have hiterations : Source.Fits c.maxIterations := ⟨by omega, by omega⟩
  exact exact_ofMembers (by cases c.schemaDir <;> simp [hiterations, Exact])

/-- A model is read as it was written, from a value and from a text, and so is a configuration whose number of levels
    fits 64 bits. A model that was read and then registered can be written and read once more: registering what comes
    back gives the same registry. -/
theorem metadata_roundTrip :
    (∀ m : Model, Model.ofJson m.toJson = .ok m ∧ decodeText Model.ofSource m.toJson.text = .ok m) ∧
      (∀ c : Config, Config.ofJson c.toJson = .ok c ∧
        (c.maxIterations < unsignedLimit → decodeText Config.ofSource c.toJson.text = .ok c)) ∧
      ∀ s m, Model.ofSource s = .ok m → ∀ r r' : Registry, r.register m = .ok r' →
        ∃ registered m', r'.model? m.name = some registered ∧ Model.ofJson registered.toJson = .ok m' ∧
          decodeText Model.ofSource registered.toJson.text = .ok m' ∧ r.register m' = .ok r' := by
  have hmodel : ∀ m : Model, decodeText Model.ofSource m.toJson.text = .ok m := fun m =>
    (decodeText_text Model.ofSource m.exact_toJson).trans m.ofJson_toJson
  refine ⟨fun m => ⟨m.ofJson_toJson, hmodel m⟩, fun c => ⟨c.ofJson_toJson, fun h => ?_⟩, ?_⟩
  · exact (decodeText_text Config.ofSource (Config.exact_toJson h)).trans c.ofJson_toJson
  · intro s m _ r r' hr
    obtain ⟨-, rfl⟩ := Registry.register_eq_ok_iff.mp hr
    exact ⟨m.complete, m.complete, Keyed.find?_insert_self .., m.complete.ofJson_toJson, hmodel m.complete,
      (r.register_complete m).trans hr⟩

/-- A model with stored paths in which a field has another name than its key. -/
def labelModel : Model where
  name := "label"
  table := "label"
  fields := Keyed.empty.insert "title" { name := "caption", type := .char }
  parentStore := true

/-- The model is read from an object that leaves its defaults out. Registered, it has the fields that every model has,
    and the name of its field is the key. -/
theorem metadata_roundTrip_labels :
    let s : Source := .obj [(some "name", .str "label"), (some "table", .str "label"),
      (some "parent_store", .bool true),
      (some "fields", .obj [(some "title", .obj [(some "name", .str "caption"), (some "type", .str "char")])])]
    let c : Config := { schemaDir := some "models", maxIterations := 5 }
    c.maxIterations < unsignedLimit ∧ decodeText Config.ofSource c.toJson.text = .ok c ∧
      Model.ofSource s = .ok labelModel ∧ ∃ r' registered m', Registry.register {} labelModel = .ok r' ∧
        r'.model? labelModel.name = some registered ∧
        registered.fields.values.map (·.name) = ["id", "parent_path", "title"] ∧
        decodeText Model.ofSource registered.toJson.text = .ok m' ∧ Registry.register {} m' = .ok r' := by
  intro s c
  obtain ⟨-, hconfig, hmodel⟩ := metadata_roundTrip
  have hread : Model.ofSource s = .ok labelModel := rfl
  obtain ⟨r', hregister⟩ : ∃ r', Registry.register {} labelModel = .ok r' := ⟨_, rfl⟩
  obtain ⟨registered, m', hfound, -, htext, hagain⟩ := hmodel s labelModel hread {} r' hregister
  have hcomplete : registered = labelModel.complete := by
    obtain ⟨-, rfl⟩ := Registry.register_eq_ok_iff.mp hregister
    exact Option.some.inj (hfound.symm.trans (Keyed.find?_insert_self ..))
  exact ⟨by decide, (hconfig c).2 (by decide), hread, r', registered, m', hregister, hfound, by rw [hcomplete]; decide,
    htext, hagain⟩

end RecordFilter
