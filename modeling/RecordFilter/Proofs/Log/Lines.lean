import RecordFilter.Log.Entry
import RecordFilter.Proofs.Json.Members
import RecordFilter.Proofs.Json.Reading

/-! Lines of the log. A line is the text of one object and a newline after it, which is the only one in the line: what
    the fields hold, newlines and quotes among it, is escaped. The object holds the event, its severity and the fields,
    and the line is the same in whatever order the fields are given. -/

namespace RecordFilter
open Json

namespace Log

/-! ### Newlines -/

theorem newline_not_mem_escapeChar (c : Char) : '\n' ∉ escapeChar c := by
  unfold escapeChar
  split_ifs with hquote hslash h8 h9 h10 h12 h13 hlow
  any_goals decide
  · intro h
    rcases List.mem_append.mp h with h | h
    · simp at h
    · exact absurd (Text.isLowerHex_of_mem_hexDigits h) (by decide)
  · rintro h
    obtain rfl := List.mem_singleton.mp h
    exact h10 rfl

theorem newline_not_mem_quoted (s : String) : '\n' ∉ (quoted s).toList := by
  simp only [Source.quoted_toList, List.mem_cons, List.mem_append, List.mem_flatMap, List.not_mem_nil, not_or, or_false]
  refine ⟨by decide, ?_, by decide⟩
  rintro ⟨c, -, hc⟩
  exact newline_not_mem_escapeChar c hc

/-! ### Objects of texts -/

/-- The members of an object that holds texts only. -/
def ofTexts (texts : List (String × String)) : List (String × Json) := texts.map fun t => (t.1, .str t.2)

def memberText (t : String × String) : String := quoted t.1 ++ ":" ++ quoted t.2

theorem newline_not_mem_memberText (t : String × String) : '\n' ∉ (memberText t).toList := by
  simp [memberText, newline_not_mem_quoted]

theorem textMembers_ofTexts (texts : List (String × String)) : textMembers (ofTexts texts) = texts.map memberText := by
  induction texts with
  | nil => rfl
  | cons t rest ih =>
    simp only [ofTexts, List.map_cons, textMembers, text] at ih ⊢
    rw [ih]
    rfl

theorem toJsonMembers_ofTexts (room : Nat) (texts : List (String × String)) :
    Source.toJsonMembers room (Source.ofJsonMembers (ofTexts texts)) = .ok (ofTexts texts) := by
  induction texts with
  | nil => simp [ofTexts, Source.ofJsonMembers, Source.toJsonMembers]
  | cons t rest ih =>
    simp only [ofTexts, List.map_cons, Source.ofJsonMembers, Source.ofJson, Source.toJsonMembers, Source.toJson] at ih ⊢
    rw [ih]

/-- With a newline after it, an object of texts is read as it was written. -/
theorem ofText_ofTexts (texts : List (String × String)) :
    ofText ((Json.obj (ofTexts texts)).text ++ "\n") = .ok (.ofMembers (ofTexts texts)) := by
  have hexact : ∀ e ∈ ofTexts texts, Source.Reads e.2 := by
    intro e he
    obtain ⟨t, -, rfl⟩ := List.mem_map.mp he
    exact Source.reads_str t.2
  have hsource : Source.ofText ((Json.obj (ofTexts texts)).text ++ "\n") = .ok (Source.ofJson (.obj (ofTexts texts))) := by
    have hnewline : "\n".toList = ['\n'] := rfl
    simp only [Source.ofText, String.toList_append, hnewline]
    rw [Source.readValue_text_obj hexact (by simp; omega)]
    rfl
  rw [ofText, hsource]
  simp only [Source.ofJson, Source.maxDepth, Source.toJson, toJsonMembers_ofTexts]

namespace Entry
variable {e : Entry}

/-! ### Lines as objects -/

/-- The members of the line, as they are written. -/
def members (e : Entry) : List (String × String) :=
  ("event", e.event) :: ("severity", e.severity.name) :: e.sorted

theorem fieldText_eq (f : String × String) : fieldText f = "," ++ memberText f := by
  simp only [fieldText, memberText, String.append_assoc]

theorem intercalate_memberText (first : String × String) (fields : List (String × String)) :
    String.intercalate "," ((first :: fields).map memberText) = memberText first ++ String.join (fields.map fieldText) := by
  induction fields generalizing first with
  | nil => simp
  | cons f rest ih =>
    rw [List.map_cons, List.map_cons, String.intercalate_cons_cons, ← List.map_cons, ih, List.map_cons,
      String.join_cons, fieldText_eq, String.append_assoc, String.append_assoc]

theorem text_members (e : Entry) : (Json.obj (ofTexts e.members)).text =
    "\x7b" ++ (memberText ("event", e.event) ++ (fieldText ("severity", e.severity.name) ++
      String.join (e.sorted.map fieldText))) ++ "\x7d" := by
  rw [text, textMembers_ofTexts, members, intercalate_memberText, List.map_cons, String.join_cons]

/-- A line is the text of an object and a newline. -/
theorem line_eq (e : Entry) : e.line = (Json.obj (ofTexts e.members)).text ++ "\n" := by
  have hevent : "\x7b\"event\":" = "\x7b" ++ quoted "event" ++ ":" := by decide
  have hseverity : ",\"severity\":\"" ++ e.severity.name ++ "\"" = fieldText ("severity", e.severity.name) := by
    cases e.severity <;> decide
  have hend : "\x7d\n" = "\x7d" ++ "\n" := by decide
  rw [text_members, memberText, ← hseverity, line, hevent, hend]
  simp only [String.append_assoc]

theorem newline_not_mem_text (e : Entry) : '\n' ∉ (Json.obj (ofTexts e.members)).text.toList := by
  have hfield (f : String × String) : '\n' ∉ (fieldText f).toList := by
    simp [fieldText_eq, newline_not_mem_memberText]
  rw [text_members]
  simp [String.toList_join, newline_not_mem_memberText, hfield]

/-! ### What the line holds -/

theorem sorted_perm (e : Entry) : e.sorted.Perm e.fields := List.mergeSort_perm _ _

/-- Fields with keys of their own have one order. -/
theorem sorted_eq_of_perm {fields : List (String × String)} (hkeys : (e.fields.map Prod.fst).Nodup)
    (h : fields.Perm e.fields) : sorted { e with fields } = e.sorted := by
  refine Keyed.mergeSort_eq_of_perm (fun f hf g hg heq => ?_) h
  exact List.inj_on_of_nodup_map hkeys hf hg heq

/-- What was read under a key: the value of the field with the key, or else what the line starts with. -/
theorem find?_members (e : Entry) (key : String) : (Keyed.ofList (ofTexts e.members)).find? key =
    ((Keyed.lookup key e.sorted.reverse).or
      (Keyed.lookup key [("severity", e.severity.name), ("event", e.event)])).map .str := by
  have hreverse : (ofTexts e.members).reverse =
      (e.sorted.reverse ++ [("severity", e.severity.name), ("event", e.event)]).map fun t => (t.1, .str t.2) := by
    rw [ofTexts, ← List.map_reverse, members, List.reverse_cons, List.reverse_cons, List.append_assoc]
    rfl
  rw [Keyed.find?_ofList, hreverse, ← Keyed.lookup_append]
  exact Keyed.lookup_mapValues (fun _ => Json.str) key _

theorem lookup_sorted {key value : String} (hkeys : (e.fields.map Prod.fst).Nodup) (h : (key, value) ∈ e.fields) :
    Keyed.lookup key e.sorted.reverse = some value := by
  have hperm : e.sorted.reverse.Perm e.fields := (List.reverse_perm _).trans e.sorted_perm
  exact Keyed.lookup_of_mem ((hperm.map Prod.fst).nodup_iff.mpr hkeys) (hperm.mem_iff.mpr h)

theorem lookup_sorted_eq_none {key : String} (h : key ∉ e.fields.map Prod.fst) :
    Keyed.lookup key e.sorted.reverse = none := by
  refine Option.eq_none_iff_forall_ne_some.mpr fun value hvalue => h ?_
  have hmem := e.sorted_perm.mem_iff.mp (List.mem_reverse.mp (Registry.mem_of_lookup hvalue))
  exact List.mem_map_of_mem (f := Prod.fst) hmem

/-- A line ends with its only newline, is read as the object of the event, its severity and its fields, and does not
    depend on the order of the fields. A field with one of the first two keys stands in place of what is under it. -/
theorem line_reads_back (e : Entry) (hkeys : (e.fields.map Prod.fst).Nodup) :
    (∃ body : String, e.line = body ++ "\n" ∧ '\n' ∉ body.toList) ∧
    (∃ object : Keyed Json, ofText e.line = .ok (.obj object.entries) ∧
      (∀ key value, (key, value) ∈ e.fields → object.find? key = some (.str value)) ∧
      ∀ key, key ∉ e.fields.map Prod.fst → object.find? key =
        if key = "event" then some (.str e.event)
        else if key = "severity" then some (.str e.severity.name)
        else none) ∧
    ∀ fields : List (String × String), fields.Perm e.fields → line { e with fields } = e.line := by
  refine ⟨⟨_, e.line_eq, e.newline_not_mem_text⟩, ⟨Keyed.ofList (ofTexts e.members), ?_, ?_, ?_⟩, ?_⟩
  · rw [line_eq, ofText_ofTexts]
    rfl
  · intro key value h
    rw [find?_members, lookup_sorted hkeys h]
    rfl
  · intro key h
    rw [find?_members, lookup_sorted_eq_none h]
    by_cases hevent : key = "event"
    · subst hevent
      rfl
    · by_cases hseverity : key = "severity"
      · subst hseverity
        rfl
      · simp [Keyed.lookup, hevent, hseverity, Ne.symm hevent, Ne.symm hseverity]
  · intro fields h
    rw [line, line, sorted_eq_of_perm hkeys h]

/-- A leaf with a quote and a newline in its value. -/
def oddLeaf : Entry := .ofEvent .legacyBooleanIn [("model", "task"), ("leaf", "('a\"\n', 'in', true)")]

theorem line_reads_back_odd :
    (oddLeaf.fields.map Prod.fst).Nodup ∧
    (∃ body : String, oddLeaf.line = body ++ "\n" ∧ '\n' ∉ body.toList) ∧
    (∃ object : Keyed Json, ofText oddLeaf.line = .ok (.obj object.entries) ∧
      object.find? "leaf" = some (.str "('a\"\n', 'in', true)") ∧
      object.find? "event" = some (.str "LEGACY_BOOLEAN_IN") ∧ object.find? "severity" = some (.str "WARN")) ∧
    line { oddLeaf with fields := oddLeaf.fields.reverse } = oddLeaf.line := by
  obtain ⟨hbody, ⟨object, hread, hfields, hothers⟩, horder⟩ := oddLeaf.line_reads_back (by decide)
  exact ⟨by decide, hbody, ⟨object, hread, hfields "leaf" _ (by decide), hothers "event" (by decide),
    hothers "severity" (by decide)⟩, horder _ (List.reverse_perm _)⟩

end Entry
end Log
end RecordFilter
