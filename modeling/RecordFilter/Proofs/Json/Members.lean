import RecordFilter.Proofs.Schema.Registering
import RecordFilter.Schema.Format

/-! Members of written objects. What is written under a key is found under it when the object is read again, whatever
    other members there are; so is every entry of a map with free keys. -/

namespace RecordFilter

namespace Keyed
variable {α : Type}

/-! ### Maps of lists -/

theorem lookup_append (key : String) (entries more : List (String × α)) :
    lookup key (entries ++ more) = (lookup key entries).or (lookup key more) := by
  induction entries with
  | nil => rfl
  | cons e rest ih =>
    obtain ⟨k, v⟩ := e
    simp only [List.cons_append, lookup, ih]
    split <;> rfl

theorem find?_foldl_insert (m : Keyed α) (entries : List (String × α)) (key : String) :
    (entries.foldl (fun m e => m.insert e.1 e.2) m).find? key = (lookup key entries.reverse).or (m.find? key) := by
  induction entries generalizing m with
  | nil => rfl
  | cons e rest ih =>
    rw [List.foldl_cons, ih, find?_insert, List.reverse_cons, lookup_append]
    simp only [lookup]
    cases lookup key rest.reverse <;> split <;> rfl

/-- The last entry with a key counts. -/
theorem find?_ofList (entries : List (String × α)) (key : String) :
    (ofList entries).find? key = lookup key entries.reverse := by
  rw [ofList, find?_foldl_insert]
  show Option.or _ none = _
  cases lookup key entries.reverse <;> rfl

theorem of_mem_ofList {entries : List (String × α)} {e : String × α} (h : e ∈ (ofList entries).entries) :
    e ∈ entries := by
  have hfound : lookup e.1 entries.reverse = some e.2 := by rw [← find?_ofList]; exact mem_entries_iff.mp h
  exact List.mem_reverse.mp (Registry.mem_of_lookup hfound)

theorem lookup_of_mem {entries : List (String × α)} (hkeys : (entries.map Prod.fst).Nodup) {key : String} {value : α}
    (h : (key, value) ∈ entries) : lookup key entries = some value := by
  induction entries with
  | nil => cases h
  | cons e rest ih =>
    obtain ⟨hfirst, hrest⟩ := List.nodup_cons.mp hkeys
    rcases List.mem_cons.mp h with rfl | h
    · exact if_pos rfl
    · have hne : e.1 ≠ key := fun heq => hfirst (heq ▸ List.mem_map_of_mem (f := Prod.fst) h)
      exact (if_neg hne).trans (ih hrest h)

theorem nodup_keys (m : Keyed α) : (m.entries.map Prod.fst).Nodup :=
  List.pairwise_map.mpr (m.increasing.imp fun {a b} (hlt : a.1 < b.1) (heq : a.1 = b.1) =>
    String.lt_irrefl _ (heq ▸ hlt))

/-- A map is that of its own entries. -/
theorem ofList_entries (m : Keyed α) : ofList m.entries = m := by
  refine eq_of_find? fun key => Option.ext fun value => ?_
  have hkeys : (m.entries.reverse.map Prod.fst).Nodup := by
    rw [List.map_reverse]
    exact List.nodup_reverse.mpr m.nodup_keys
  rw [find?_ofList, ← mem_entries_iff]
  exact ⟨fun h => List.mem_reverse.mp (Registry.mem_of_lookup h), fun h => lookup_of_mem hkeys (List.mem_reverse.mpr h)⟩

/-! ### Lists in the order of a key -/

section
variable {key : α → String}

theorem pairwise_mergeSort (key : α → String) (l : List α) :
    (l.mergeSort fun a b => key a ≤ key b).Pairwise fun a b => key a ≤ key b := by
  have htrans : ∀ a b c : α, decide (key a ≤ key b) = true → decide (key b ≤ key c) = true →
      decide (key a ≤ key c) = true := fun a b c hab hbc =>
    decide_eq_true (String.le_trans (of_decide_eq_true hab) (of_decide_eq_true hbc))
  have htotal : ∀ a b : α, (decide (key a ≤ key b) || decide (key b ≤ key a)) = true := fun a b => by
    simpa using String.le_total (key a) (key b)
  exact (List.pairwise_mergeSort htrans htotal l).imp of_decide_eq_true

/-- What is known by its keys has one order. -/
theorem mergeSort_eq_of_perm {l l' : List α} (hkeys : ∀ a ∈ l, ∀ b ∈ l, key a = key b → a = b) (h : l'.Perm l) :
    (l'.mergeSort fun a b => key a ≤ key b) = l.mergeSort fun a b => key a ≤ key b := by
  have hsorted (l : List α) := List.mergeSort_perm l fun a b => key a ≤ key b
  refine List.Perm.eq_of_pairwise (fun a b ha hb hab hba => ?_) (pairwise_mergeSort key l') (pairwise_mergeSort key l)
    ((hsorted l').trans (h.trans (hsorted l).symm))
  exact hkeys a (h.mem_iff.mp ((hsorted l').mem_iff.mp ha)) b ((hsorted l).mem_iff.mp hb) (String.le_antisymm hab hba)

end

end Keyed

namespace Json

/-! ### Records -/

namespace Members
variable {known : List String} {members : List (String × Json)} {ms : Members} {α : Type} {key expected : String}
  {read : Source → Option α} {missing : Option α} {x : α}

theorem find?_map_ofJson (members : List (String × Json)) (key : String) :
    find? key (members.map fun e => (e.1, Source.ofJson e.2)) = (Keyed.lookup key members).map Source.ofJson := by
  unfold find?
  induction members with
  | nil => rfl
  | cons e rest ih =>
    obtain ⟨k, v⟩ := e
    rw [List.map_cons, List.lookup_cons, ih, Keyed.lookup]
    by_cases hk : k = key
    · rw [if_pos hk, beq_iff_eq.mpr hk.symm]
      rfl
    · rw [if_neg hk, beq_eq_false_iff_ne.mpr (Ne.symm hk)]

/-- Known members with different keys are all collected. -/
theorem ofObject_ofJsonMembers (hknown : ∀ e ∈ members, e.1 ∈ known) (hkeys : (members.map Prod.fst).Nodup) :
    ofObject known (Source.ofJsonMembers members) = .ok (members.map fun e => (e.1, Source.ofJson e.2)) := by
  induction members with
  | nil => rfl
  | cons e rest ih =>
    obtain ⟨k, v⟩ := e
    obtain ⟨hk, hrest⟩ := List.forall_mem_cons.mp hknown
    obtain ⟨hfirst, hkeys⟩ := List.nodup_cons.mp hkeys
    have hnone : find? k (rest.map fun e => (e.1, Source.ofJson e.2)) = none := by
      rw [find?_map_ofJson, Option.map_eq_none_iff]
      refine Option.eq_none_iff_forall_ne_some.mpr fun value hfound => hfirst ?_
      exact List.mem_map.mpr ⟨(k, value), Registry.mem_of_lookup hfound, rfl⟩
    rw [Source.ofJsonMembers, ofObject, ih hrest hkeys]
    dsimp only
    rw [hnone, if_neg (by simpa using hk)]
    rfl

/-- What a written record holds under each key. -/
theorem ofSource_ofMembers (hknown : ∀ e ∈ members, e.1 ∈ known) :
    ∃ ms, ofSource known (Source.ofJson (.ofMembers members)) = .ok ms ∧
      ∀ key, ms.find? key = (Keyed.lookup key members.reverse).map Source.ofJson := by
  have hentries : ∀ e ∈ (Keyed.ofList members).entries, e.1 ∈ known := fun e he => hknown e (Keyed.of_mem_ofList he)
  refine ⟨_, ofObject_ofJsonMembers hentries (Keyed.ofList members).nodup_keys, fun key => ?_⟩
  rw [find?_map_ofJson, ← Keyed.find?_ofList]
  rfl

theorem get_of_find? {s : Source} (h : ms.find? key = some s) (hread : read s = some x) :
    ms.get key expected read missing = .ok x := by
  simp only [get, h, hread]

/-- An optional member is read again, whether or not it was written: nothing that is written is null. -/
theorem get_optional {write : α → Json} {o : Option α} (h : ms.find? key = (o.map write).map Source.ofJson)
    (hread : ∀ x, o = some x → read (Source.ofJson (write x)) = some x)
    (hnull : ∀ x, Source.ofJson (write x) ≠ .null) :
    ms.get key expected (Source.optional? read) (some none) = .ok o := by
  unfold get
  rw [h]
  cases o with
  | none => rfl
  | some x =>
    have hoptional : Source.optional? read (Source.ofJson (write x)) = some (some x) := by
      unfold Source.optional?
      split
      · exact absurd ‹_› (hnull x)
      · rw [hread x rfl]
        rfl
    simp only [Option.map_some, hoptional]

end Members

/-! ### Maps -/

theorem Source.entries_ofJsonMembers {α : Type} {read : Source → Except Mismatch α} {write : α → Json}
    (entries : List (String × α)) (hread : ∀ e ∈ entries, read (ofJson (write e.2)) = .ok e.2) (found : Keyed α) :
    map.entries read found (ofJsonMembers (entries.map fun e => (e.1, write e.2))) =
      .ok (entries.foldl (fun m e => m.insert e.1 e.2) found) := by
  induction entries generalizing found with
  | nil => rfl
  | cons e rest ih =>
    obtain ⟨hfirst, hrest⟩ := List.forall_mem_cons.mp hread
    rw [List.map_cons, ofJsonMembers, map.entries, hfirst]
    exact ih hrest _

/-- A written map is read again. -/
theorem Source.map_ofMembers {α : Type} {read : Source → Except Mismatch α} {write : α → Json} (m : Keyed α)
    (hread : ∀ e ∈ m.entries, read (ofJson (write e.2)) = .ok e.2) :
    map read (ofJson (.ofMembers (m.entries.map fun e => (e.1, write e.2)))) = .ok m := by
  have hsorted : Keyed.ofList (m.entries.map fun e => (e.1, write e.2)) = m.mapValues fun _ => write :=
    Keyed.ofList_entries (m.mapValues fun _ => write)
  rw [ofMembers, hsorted]
  show map.entries read .empty (ofJsonMembers (m.entries.map fun e => (e.1, write e.2))) = _
  rw [entries_ofJsonMembers m.entries hread]
  exact congrArg Except.ok m.ofList_entries

end Json
end RecordFilter
