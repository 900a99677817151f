import RecordFilter.Proofs.Schema.Registering
import RecordFilter.Proofs.Schema.RoundTrip
import RecordFilter.Schema.Directory

/-! Loading a schema. The names in a directory come in any order, so the files are put in the order of their paths before
    their models are registered: the outcome is the same for every order of the names, the first file in order that
    fails is the one reported, and the registry is left with the models of the files before it. -/

namespace RecordFilter
open Json

namespace Files

/-- The names among the entries of a directory that can be read. -/
def readable (entries : List (Except String String)) : List String := entries.filterMap Except.toOption

/-- What is found in a directory: a name stands once and goes no further down, and entries that cannot be read are so for
    one reason. -/
structure IsListing (entries : List (Except String String)) : Prop where
  nodup : (readable entries).Nodup
  inside : ∀ name ∈ readable entries, '/' ∉ name.toList
  reason : ∀ reason reason', .error reason ∈ entries → .error reason' ∈ entries → reason = reason'

theorem isAbsolute_of_inside {name : String} (h : '/' ∉ name.toList) : isAbsolute name = false := by
  refine decide_eq_false fun hhead => h ?_
  exact List.mem_of_mem_head? hhead

/-- Seen from one directory, two names in it are two paths. -/
theorem join_inj {base name name' : String} (h : '/' ∉ name.toList) (h' : '/' ∉ name'.toList)
    (heq : join base name = join base name') : name = name' := by
  simp only [join, isAbsolute_of_inside h, isAbsolute_of_inside h', Bool.false_or, decide_eq_true_eq] at heq
  split at heq
  · exact heq
  · split at heq
    · exact (String.append_right_inj _).mp heq
    · exact (String.append_right_inj _).mp heq

/-- The same files, and the entries of a directory in any other order, or no entries for the same reason. -/
structure Relisted (a b : Access Id) (directory : String) : Prop where
  readText : ∀ path, b.readText path = a.readText path
  isDirectory : b.isDirectory directory = a.isDirectory directory
  unlisted : ∀ reason, a.names directory = .error reason → b.names directory = .error reason
  names : ∀ entries, a.names directory = .ok entries → ∃ entries', b.names directory = .ok entries' ∧ entries'.Perm entries

end Files

/-- The file that a fault was met in. -/
def SchemaFault.file? : SchemaFault → Option String
  | unreadable path _ | notJson path _ | file path _ => some path
  | _ => none

namespace Schema
variable {r r' : Registry} {f : ModelFile} {files done : List ModelFile}

/-! ### The order of the files -/

theorem inOrder_perm (files : List ModelFile) : (inOrder files).Perm files := List.mergeSort_perm _ _

theorem inOrder_sorted (files : List ModelFile) : (inOrder files).Pairwise fun f g => f.path ≤ g.path :=
  Keyed.pairwise_mergeSort ModelFile.path files

/-- Files that are known by their paths have one order. -/
theorem inOrder_eq_of_perm {files' : List ModelFile} (hpaths : ∀ f ∈ files, ∀ g ∈ files, f.path = g.path → f = g)
    (h : files'.Perm files) : inOrder files' = inOrder files :=
  Keyed.mergeSort_eq_of_perm hpaths h

/-- In order, what stands before a file is what has a smaller path. -/
theorem before_perm {before after : List ModelFile} (hnodup : (files.map ModelFile.path).Nodup)
    (h : inOrder files = before ++ f :: after) : before.Perm (files.filter (·.path < f.path)) := by
  have hne : (inOrder files).Pairwise fun g g' => g.path ≠ g'.path :=
    List.pairwise_map.mp (((inOrder_perm files).map ModelFile.path).nodup_iff.mpr hnodup)
  have hlt : (inOrder files).Pairwise fun g g' => g.path < g'.path :=
    (inOrder_sorted files).imp₂ (fun g g' hle hne => Std.lt_of_le_of_ne hle hne) hne
  rw [h, List.pairwise_append] at hlt
  obtain ⟨-, hrest, hacross⟩ := hlt
  have hbefore : ∀ g ∈ before, decide (g.path < f.path) = true := fun g hg =>
    decide_eq_true (hacross g hg f List.mem_cons_self)
  have hafter : ∀ g ∈ f :: after, ¬decide (g.path < f.path) = true := by
    intro g hg hlt
    rcases List.mem_cons.mp hg with rfl | hg
    · exact String.lt_irrefl _ (of_decide_eq_true hlt)
    · exact String.lt_irrefl _ (String.lt_trans (of_decide_eq_true hlt) ((List.pairwise_cons.mp hrest).1 g hg))
  have hfilter : (inOrder files).filter (·.path < f.path) = before := by
    rw [h, List.filter_append, List.filter_eq_self.mpr hbefore, List.filter_eq_nil_iff.mpr hafter, List.append_nil]
  exact hfilter ▸ (inOrder_perm files).filter _

/-! ### What is registered -/

/-- The model that a file describes, if it can be read. -/
def ModelFile.model? (f : ModelFile) : Option Model :=
  f.content.toOption.bind fun text => (decodeText Model.ofSource text).toOption

/-- A file with the text of a model describes that model. -/
theorem model?_of_text (path : String) (m : Model) : ModelFile.model? ⟨path, .ok m.toJson.text⟩ = some m := by
  have hread : decodeText Model.ofSource m.toJson.text = .ok m :=
    (decodeText_text Model.ofSource m.exact_toJson).trans m.ofJson_toJson
  simp only [ModelFile.model?, Except.toOption, Option.bind_some, hread]

/-- The registry holds the models of the files, completed, each under a name of its own, and nothing else. -/
structure Holds (r : Registry) (files : List ModelFile) : Prop where
  registered : ∀ f ∈ files, ∃ m, f.model? = some m ∧ r.model? m.name = some m.complete
  only : ∀ name m, r.model? name = some m → ∃ f ∈ files, ∃ m', f.model? = some m' ∧ m'.name = name ∧ m = m'.complete
  apart : files.Pairwise fun f g => ∀ m m', f.model? = some m → g.model? = some m' → m.name ≠ m'.name
  noHook : r.hooks = .empty

theorem Holds.start : Holds {} [] where
  registered := nofun
  only := nofun
  apart := .nil
  noHook := rfl

theorem Holds.perm {files' : List ModelFile} (h : Holds r files) (hperm : files.Perm files') : Holds r files' where
  registered f hf := h.registered f (hperm.mem_iff.mpr hf)
  only name m hm := by
    obtain ⟨f, hf, hfound⟩ := h.only name m hm
    exact ⟨f, hperm.mem_iff.mp hf, hfound⟩
  apart := (hperm.pairwise_iff fun {f g} hfg m m' hm hm' => (hfg m' m hm' hm).symm).mp h.apart
  noHook := h.noHook

/-- A file is loaded when its text is that of a model and the model can be registered. -/
theorem loadFile_eq_ok_iff :
    loadFile r f = (.ok (), r') ↔ ∃ m, f.model? = some m ∧ r.attempt m = (.ok (), r') := by
  unfold loadFile ModelFile.model?
  cases f.content with
  | error reason => simp [Except.toOption]
  | ok text =>
    dsimp only [Except.toOption, Option.bind]
    cases decodeText Model.ofSource text with
    | error mismatch => simp
    | ok m =>
      dsimp only
      rcases Registry.attempt_eq r m with ⟨-, heq⟩ | ⟨-, fault, heq⟩ <;> simp [heq]

/-- A file that cannot be loaded is named by the error, and changes nothing. -/
theorem loadFile_cases (r : Registry) (f : ModelFile) :
    (∃ r', loadFile r f = (.ok (), r')) ∨
      ∃ fault, loadFile r f = (.error (.schema fault), r) ∧ fault.file? = some f.path := by
  unfold loadFile
  cases f.content with
  | error reason => exact .inr ⟨_, rfl, rfl⟩
  | ok text =>
    dsimp only
    cases decodeText Model.ofSource text with
    | error mismatch => exact .inr ⟨_, rfl, rfl⟩
    | ok m =>
      dsimp only
      rcases Registry.attempt_eq r m with ⟨-, heq⟩ | ⟨-, fault, heq⟩ <;> rw [heq]
      · exact .inl ⟨_, rfl⟩
      · exact .inr ⟨_, rfl, rfl⟩

/-- A file that is loaded adds its model. -/
theorem Holds.loadFile (h : Holds r done) (hf : loadFile r f = (.ok (), r')) : Holds r' (done ++ [f]) := by
  obtain ⟨m, hm, hregister⟩ := loadFile_eq_ok_iff.mp hf
  obtain ⟨hregistrable, rfl⟩ := Registry.attempt_eq_ok_iff.mp hregister
  have hmodel : ∀ name, Registry.model? { r with models := r.models.insert m.name m.complete } name =
      if m.name = name then some m.complete else r.model? name := fun name => Keyed.find?_insert _ _ _ _
  -- A model that was there before is kept, as its name is not the new one.
  have hne : ∀ {name m'}, r.model? name = some m' → m.name ≠ name := by
    rintro name m' hm' rfl
    rw [hregistrable.fresh] at hm'
    cases hm'
  refine ⟨fun g hg => ?_, fun name m' hm' => ?_, ?_, h.noHook⟩
  · rcases List.mem_append.mp hg with hg | hg
    · obtain ⟨m', hm', hfound⟩ := h.registered g hg
      exact ⟨m', hm', by rw [hmodel, if_neg (hne hfound), hfound]⟩
    · rw [List.mem_singleton.mp hg]
      exact ⟨m, hm, by rw [hmodel, if_pos rfl]⟩
  · rw [hmodel] at hm'
    split at hm'
    · rename_i hname
      exact ⟨f, List.mem_append_right _ (List.mem_singleton_self f), m, hm, hname, (Option.some.inj hm').symm⟩
    · obtain ⟨g, hg, hfound⟩ := h.only name m' hm'
      exact ⟨g, List.mem_append_left _ hg, hfound⟩
  · refine List.pairwise_append.mpr ⟨h.apart, List.pairwise_singleton _ _, fun g hg f' hf' m₁ m₂ hm₁ hm₂ => ?_⟩
    rw [List.mem_singleton.mp hf', hm] at hm₂
    cases hm₂
    obtain ⟨m', hm', hfound⟩ := h.registered g hg
    cases hm₁.symm.trans hm'
    exact (hne hfound).symm

/-- Loading files one after another takes in all of them, or those before the first that fails. -/
theorem Holds.loadFiles (h : Holds r done) (files : List ModelFile) :
    (∃ r', loadFiles r files = (.ok (), r') ∧ Holds r' (done ++ files)) ∨
      ∃ before f after fault r', files = before ++ f :: after ∧ loadFiles r files = (.error (.schema fault), r') ∧
        Holds r' (done ++ before) ∧ Schema.loadFile r' f = (.error (.schema fault), r') ∧
        fault.file? = some f.path := by
  induction files generalizing r done with
  | nil => exact .inl ⟨r, rfl, by rwa [List.append_nil]⟩
  | cons f rest ih =>
    unfold Schema.loadFiles
    rcases loadFile_cases r f with ⟨r₁, hf⟩ | ⟨fault, hf, hfile⟩ <;> rw [hf]
    · rcases ih (h.loadFile hf) with ⟨r', hrun, hholds⟩ | ⟨before, g, after, fault, r', rfl, hrun, hholds, hg⟩
      · exact .inl ⟨r', hrun, by rwa [List.append_assoc] at hholds⟩
      · exact .inr ⟨f :: before, g, after, fault, r', rfl, hrun, by rwa [List.append_assoc] at hholds, hg⟩
    · exact .inr ⟨[], f, rest, fault, r, rfl, rfl, by rwa [List.append_nil], hf, hfile⟩

/-! ### Directories -/

variable {a b : Files.Access Id} {directory : String} {entries entries' : List (Except String String)}

/-- The model files of a directory with the given entries, in their order. -/
def filesOf (a : Files.Access Id) (directory : String) (entries : List (Except String String)) : List ModelFile :=
  ((Files.readable entries).filter Files.isJsonFile).map fun name =>
    ⟨Files.join directory name, a.readText (Files.join directory name)⟩

theorem readAll_eq (a : Files.Access Id) (paths : List String) :
    readAll a paths = paths.map fun path => (⟨path, a.readText path⟩ : ModelFile) := by
  induction paths with
  | nil => rfl
  | cons path rest ih =>
    show (⟨path, a.readText path⟩ :: readAll a rest : List ModelFile) = _
    rw [ih]
    rfl

/-- The names of the model files are found if there is no entry that cannot be read. -/
theorem modelNames_cases (entries : List (Except String String)) :
    (∃ reason, .error reason ∈ entries ∧ modelNames entries = .error reason) ∨
      ((∀ reason, .error reason ∉ entries) ∧
        modelNames entries = .ok ((Files.readable entries).filter Files.isJsonFile)) := by
  induction entries with
  | nil => exact .inr ⟨nofun, rfl⟩
  | cons entry rest ih =>
    cases entry with
    | error reason => exact .inl ⟨reason, List.mem_cons_self, rfl⟩
    | ok name =>
      unfold modelNames
      rcases ih with ⟨reason, hmem, heq⟩ | ⟨hnone, heq⟩ <;> rw [heq]
      · exact .inl ⟨reason, List.mem_cons_of_mem _ hmem, rfl⟩
      · refine .inr ⟨fun reason hmem => ?_, ?_⟩
        · rcases List.mem_cons.mp hmem with h | hmem
          · cases h
          · exact hnone reason hmem
        · exact congrArg Except.ok (List.filter_cons ..).symm

/-! ### Loading -/

theorem load_of_missing (h : a.isDirectory directory = false) :
    load a directory = (.error (.schema (.noDirectory directory)), {}) := by
  unfold load
  rw [h]
  rfl

theorem load_of_unlisted {reason : String} (h : a.isDirectory directory = true)
    (hnames : a.names directory = .error reason) :
    load a directory = (.error (.schema (.unlisted directory reason)), {}) := by
  unfold load
  rw [h, hnames]
  rfl

theorem load_of_listed (h : a.isDirectory directory = true) (hnames : a.names directory = .ok entries) :
    load a directory = match modelNames entries with
      | .error reason => ((.error (.schema (.badEntry reason)), {}) : Except Error Unit × Registry)
      | .ok names => loadAll (readAll a (names.map (Files.join directory))) := by
  unfold load
  rw [h, hnames]
  -- Without a monad the steps up to the listing run off, and what is left branches on the names.
  show (match modelNames entries with | .error _ => _ | .ok _ => _) = _
  cases modelNames entries <;> rfl

theorem load_of_entries (h : a.isDirectory directory = true) (hnames : a.names directory = .ok entries)
    (hgood : modelNames entries = .ok ((Files.readable entries).filter Files.isJsonFile)) :
    load a directory = loadAll (filesOf a directory entries) := by
  rw [load_of_listed h hnames, hgood]
  dsimp only
  rw [readAll_eq, List.map_map]
  rfl

/-- A file is known by its path. -/
theorem eq_of_path {g : ModelFile} (hf : f ∈ filesOf a directory entries) (hg : g ∈ filesOf a directory entries)
    (h : f.path = g.path) : f = g := by
  obtain ⟨name, -, rfl⟩ := List.mem_map.mp hf
  obtain ⟨name', -, rfl⟩ := List.mem_map.mp hg
  dsimp only at h
  rw [h]

theorem nodup_paths (hlisting : Files.IsListing entries) :
    ((filesOf a directory entries).map ModelFile.path).Nodup := by
  rw [filesOf, List.map_map]
  refine List.Nodup.map_on (fun name hname name' hname' heq => ?_) (hlisting.nodup.filter _)
  exact Files.join_inj (hlisting.inside name (List.mem_filter.mp hname).1)
    (hlisting.inside name' (List.mem_filter.mp hname').1) heq

theorem filesOf_perm (hread : ∀ path, b.readText path = a.readText path) (hperm : entries'.Perm entries) :
    (filesOf b directory entries').Perm (filesOf a directory entries) := by
  unfold filesOf Files.readable
  simp only [hread]
  exact ((hperm.filterMap _).filter _).map _

/-- How loading the files of a directory ends: every file registers, and what is left is to check the whole; or one file
    fails, the error names it, and the registry is left with the models of the files whose paths are smaller, which have
    all been registered. -/
def EndsByFiles (files : List ModelFile) (ending : Except Error Unit × Registry) : Prop :=
  (∃ r, ending = (r.validate, r) ∧ Holds r files) ∨
    ∃ f ∈ files, ∃ fault r, ending = (.error (.schema fault), r) ∧ loadFile r f = (.error (.schema fault), r) ∧
      fault.file? = some f.path ∧ Holds r (files.filter (·.path < f.path))

theorem loadAll_ends (hnodup : (files.map ModelFile.path).Nodup) : EndsByFiles files (loadAll files) := by
  unfold loadAll
  rcases Holds.start.loadFiles (inOrder files) with
    ⟨r, hrun, hholds⟩ | ⟨before, f, after, fault, r, horder, hrun, hholds, hf, hfile⟩ <;> rw [hrun]
  · exact .inl ⟨r, rfl, hholds.perm (inOrder_perm _)⟩
  · have hmem : f ∈ files :=
      (inOrder_perm _).mem_iff.mp (horder ▸ List.mem_append_right before List.mem_cons_self)
    exact .inr ⟨f, hmem, fault, r, rfl, hf, hfile, hholds.perm (before_perm hnodup horder)⟩

/-- Whatever the order in which the entries of a directory come, loading it ends the same way and leaves the same
    registry. Without the directory, without its listing or with an entry that cannot be read nothing is registered, and
    the error says so; else all of its model files are registered and checked, or those before the first that fails. -/
theorem load_relisted (hlisting : ∀ entries, a.names directory = .ok entries → Files.IsListing entries)
    (h : Files.Relisted a b directory) :
    load b directory = load a directory ∧
      ((a.isDirectory directory = false ∧ load a directory = (.error (.schema (.noDirectory directory)), {})) ∨
        (∃ reason, a.names directory = .error reason ∧
          load a directory = (.error (.schema (.unlisted directory reason)), {})) ∨
        ∃ entries, a.names directory = .ok entries ∧
          ((∃ reason, .error reason ∈ entries ∧ load a directory = (.error (.schema (.badEntry reason)), {})) ∨
            EndsByFiles (filesOf a directory entries) (load a directory))) := by
  cases hdirectory : a.isDirectory directory with
  | false =>
    rw [load_of_missing hdirectory, load_of_missing (h.isDirectory.trans hdirectory)]
    exact ⟨rfl, .inl ⟨rfl, rfl⟩⟩
  | true =>
    have hdirectory' : b.isDirectory directory = true := h.isDirectory.trans hdirectory
    cases hnames : a.names directory with
    | error reason =>
      rw [load_of_unlisted hdirectory hnames, load_of_unlisted hdirectory' (h.unlisted reason hnames)]
      exact ⟨rfl, .inr (.inl ⟨reason, rfl, rfl⟩)⟩
    | ok entries =>
      obtain ⟨entries', hnames', hperm⟩ := h.names entries hnames
      suffices heq : load b directory = load a directory ∧
          ((∃ reason, .error reason ∈ entries ∧ load a directory = (.error (.schema (.badEntry reason)), {})) ∨
            EndsByFiles (filesOf a directory entries) (load a directory)) from
        ⟨heq.1, .inr (.inr ⟨entries, rfl, heq.2⟩)⟩
      rcases modelNames_cases entries with ⟨reason, hmem, hbad⟩ | ⟨hreadable, hgood⟩ <;>
        rcases modelNames_cases entries' with ⟨reason', hmem', hbad'⟩ | ⟨hreadable', hgood'⟩
      · -- Both orders stop at an entry that cannot be read, and there is one reason.
        obtain rfl := (hlisting entries hnames).reason reason reason' hmem (hperm.mem_iff.mp hmem')
        rw [load_of_listed hdirectory hnames, load_of_listed hdirectory' hnames', hbad, hbad']
        exact ⟨rfl, .inl ⟨reason, hmem, rfl⟩⟩
      · exact absurd (hperm.mem_iff.mpr hmem) (hreadable' reason)
      · exact absurd (hperm.mem_iff.mp hmem') (hreadable reason')
      · have hsame : inOrder (filesOf b directory entries') = inOrder (filesOf a directory entries) :=
          inOrder_eq_of_perm (fun f hf g hg => eq_of_path hf hg) (filesOf_perm h.readText hperm)
        rw [load_of_entries hdirectory hnames hgood, load_of_entries hdirectory' hnames' hgood']
        exact ⟨by rw [loadAll, loadAll, hsame], .inr (loadAll_ends (nodup_paths (hlisting entries hnames)))⟩

/-- A directory in which the same model stands in every file. -/
def roomFiles : Files.Access Id where
  readText _ := .ok roomModel.toJson.text
  isDirectory path := decide (path = "models")
  names _ := .ok [.ok "b.json", .ok "notes.txt", .ok "a.json"]
  readInput := .ok ""

/-- In whatever order the files are found, it is the second one in the order of the paths that clashes. -/
theorem load_relisted_rooms :
    let b : Files.Access Id :=
      { roomFiles with names := fun _ => .ok [.ok "a.json", .ok "b.json", .ok "notes.txt"] }
    let first : ModelFile := ⟨"models/a.json", .ok roomModel.toJson.text⟩
    (∀ entries, roomFiles.names "models" = .ok entries → Files.IsListing entries) ∧
      Files.Relisted roomFiles b "models" ∧ load b "models" = load roomFiles "models" ∧
      ∃ fault r, load roomFiles "models" = (.error (.schema fault), r) ∧ fault.file? = some "models/b.json" ∧
        Holds r [first] := by
  intro b first
  let second : ModelFile := ⟨"models/b.json", .ok roomModel.toJson.text⟩
  have hlisting : ∀ entries, roomFiles.names "models" = .ok entries → Files.IsListing entries := by
    rintro _ ⟨⟩
    exact ⟨by decide +kernel, by decide +kernel, fun _ _ hmem => by simp at hmem⟩
  have hsame : Files.Relisted roomFiles b "models" := by
    refine ⟨fun _ => rfl, rfl, nofun, ?_⟩
    rintro _ ⟨⟩
    exact ⟨_, rfl, by decide⟩
  obtain ⟨hload, hends⟩ := load_relisted hlisting hsame
  rcases hends with ⟨hmissing, -⟩ | ⟨reason, hunlisted, -⟩ | ⟨_, ⟨⟩, ⟨reason, hmem, -⟩ | hends⟩
  · cases hmissing
  · cases hunlisted
  · simp at hmem
  have hfiles : filesOf roomFiles "models" [.ok "b.json", .ok "notes.txt", .ok "a.json"] = [second, first] := rfl
  rw [hfiles] at hends
  rcases hends with ⟨r, -, hholds⟩ | ⟨f, hf, fault, r, hrun, hfails, hfile, hholds⟩
  · have hapart := (List.pairwise_cons.mp hholds.apart).1 first (List.mem_singleton_self first)
    exact absurd rfl (hapart roomModel roomModel (model?_of_text _ _) (model?_of_text _ _))
  · rcases List.mem_cons.mp hf with rfl | hf
    · have hbefore : [second, first].filter (·.path < second.path) = [first] := by
        rw [List.filter_cons_of_neg (by decide +kernel), List.filter_cons_of_pos (by decide +kernel), List.filter_nil]
      exact ⟨hlisting, hsame, hload, fault, r, hrun, hfile, hbefore ▸ hholds⟩
    · -- The first file in order finds an empty registry, and is registered.
      rw [List.mem_singleton.mp hf] at hfails hholds
      rw [List.filter_cons_of_neg (by decide +kernel), List.filter_cons_of_neg (by decide +kernel),
        List.filter_nil] at hholds
      have hfresh : r.model? roomModel.name = none := Option.eq_none_iff_forall_ne_some.mpr fun m hm => by
        obtain ⟨g, hg, -⟩ := hholds.only _ m hm
        cases hg
      have hfields : ∀ field ∈ roomModel.fields.keys, Text.isIdentifier field := by decide
      have hregistrable : r.Registrable roomModel := ⟨Text.isModelName_iff.mp (by decide),
        Text.isIdentifier_iff.mp (by decide), fun field hfield => Text.isIdentifier_iff.mp (hfields field hfield), hfresh⟩
      have hregister := Registry.attempt_eq_ok_iff.mpr ⟨hregistrable, rfl⟩
      rw [loadFile_eq_ok_iff.mpr ⟨roomModel, model?_of_text _ _, hregister⟩] at hfails
      cases hfails

end Schema
end RecordFilter
