/-! Maps with text keys, kept as lists of entries in increasing order of their keys. Looking up an
entry gives what was stored last under its key. -/

namespace RecordFilter

/-- A map: its entries, each key once and in increasing order. -/
structure Keyed (α : Type) where
  entries : List (String × α)
  increasing : entries.Pairwise fun a b => a.1 < b.1
deriving DecidableEq, Repr

namespace Keyed

variable {α β : Type}

/-! ### Lists of entries -/

/-- The value of the first entry with a key. -/
def lookup (key : String) : List (String × α) → Option α
  | [] => none
  | (k, v) :: rest => if k = key then some v else lookup key rest

/-- Puts an entry at its place among others in increasing order, over an entry with its key. -/
def place (key : String) (value : α) : List (String × α) → List (String × α)
  | [] => [(key, value)]
  | (k, v) :: rest =>
    if key < k then (key, value) :: (k, v) :: rest
    else if k = key then (key, value) :: rest
    else (k, v) :: place key value rest

theorem of_mem_place {key : String} {value : α} {entries : List (String × α)} {e : String × α}
    (h : e ∈ place key value entries) : e = (key, value) ∨ e ∈ entries := by
  induction entries with
  | nil => exact Or.inl (by simpa [place] using h)
  | cons f rest ih =>
    obtain ⟨k, v⟩ := f
    unfold place at h
    split at h
    · rcases List.mem_cons.1 h with h | h
      · exact Or.inl h
      · exact Or.inr h
    · split at h
      · rcases List.mem_cons.1 h with h | h
        · exact Or.inl h
        · exact Or.inr (List.mem_cons_of_mem _ h)
      · rcases List.mem_cons.1 h with h | h
        · exact Or.inr (h ▸ List.mem_cons_self)
        · exact (ih h).imp_right (List.mem_cons_of_mem _)

/-- The order survives a new entry. -/
theorem increasing_place (key : String) (value : α) {entries : List (String × α)}
    (h : entries.Pairwise fun a b => a.1 < b.1) :
    (place key value entries).Pairwise fun a b => a.1 < b.1 := by
  induction entries with
  | nil => exact List.pairwise_singleton _ _
  | cons f rest ih =>
    obtain ⟨k, v⟩ := f
    obtain ⟨first, others⟩ := List.pairwise_cons.1 h
    unfold place
    split
    · rename_i small
      refine List.pairwise_cons.2 ⟨fun e he => ?_, h⟩
      rcases List.mem_cons.1 he with rfl | he
      · exact small
      · exact String.lt_trans small (first e he)
    · split
      · rename_i same
        subst same
        exact List.pairwise_cons.2 ⟨first, others⟩
      · rename_i notSmall other
        refine List.pairwise_cons.2 ⟨fun e he => ?_, ih others⟩
        rcases of_mem_place he with rfl | he
        · exact Decidable.byContradiction fun notLarge =>
            other (String.le_antisymm (String.not_lt.1 notSmall) (String.not_lt.1 notLarge))
        · exact first e he

/-! ### Maps -/

/-- The map without entries. -/
def empty : Keyed α := ⟨[], .nil⟩

instance : EmptyCollection (Keyed α) := ⟨empty⟩

instance : Inhabited (Keyed α) := ⟨empty⟩

/-- The value stored under `key`. -/
def find? (m : Keyed α) (key : String) : Option α := lookup key m.entries

/-- Whether `key` has a value. -/
def contains (m : Keyed α) (key : String) : Bool := (m.find? key).isSome

/-- Stores `value` under `key`, replacing what was there. -/
def insert (m : Keyed α) (key : String) (value : α) : Keyed α :=
  ⟨place key value m.entries, increasing_place key value m.increasing⟩

/-- Stores `value` under `key` unless the key has a value already. -/
def insertNew (m : Keyed α) (key : String) (value : α) : Keyed α :=
  if m.contains key then m else m.insert key value

/-- The map of a list of entries; the last entry of a repeated key counts. -/
def ofList (entries : List (String × α)) : Keyed α :=
  entries.foldl (fun m e => m.insert e.1 e.2) empty

/-- The number of entries. -/
def size (m : Keyed α) : Nat := m.entries.length

/-- The keys in increasing order. -/
def keys (m : Keyed α) : List String := m.entries.map Prod.fst

/-- The values in the order of their keys. -/
def values (m : Keyed α) : List α := m.entries.map Prod.snd

/-- Changes every value, given its key. -/
def mapValues (f : String → α → β) (m : Keyed α) : Keyed β :=
  ⟨m.entries.map fun e => (e.1, f e.1 e.2), List.pairwise_map.2 m.increasing⟩

/-! ### Looking up what was stored -/

theorem lookup_place_self (key : String) (value : α) (entries : List (String × α)) :
    lookup key (place key value entries) = some value := by
  induction entries with
  | nil => simp [place, lookup]
  | cons e rest ih =>
    obtain ⟨k, v⟩ := e
    unfold place
    split
    · simp [lookup]
    · split
      · simp [lookup]
      · rename_i hk
        simp [lookup, hk, ih]

theorem lookup_place_of_ne {key other : String} (h : key ≠ other) (value : α)
    (entries : List (String × α)) :
    lookup other (place key value entries) = lookup other entries := by
  induction entries with
  | nil => simp [place, lookup, h]
  | cons e rest ih =>
    obtain ⟨k, v⟩ := e
    unfold place
    split
    · simp [lookup, h]
    · split
      · rename_i hk
        subst hk
        simp [lookup, h]
      · simp [lookup, ih]

/-- A stored value is found again. -/
@[simp] theorem find?_insert_self (m : Keyed α) (key : String) (value : α) :
    (m.insert key value).find? key = some value := lookup_place_self key value m.entries

/-- Storing a value leaves the other keys alone. -/
theorem find?_insert_of_ne (m : Keyed α) {key other : String} (h : key ≠ other) (value : α) :
    (m.insert key value).find? other = m.find? other := lookup_place_of_ne h value m.entries

theorem lookup_mapValues (f : String → α → β) (key : String) (entries : List (String × α)) :
    lookup key (entries.map fun e => (e.1, f e.1 e.2)) = (lookup key entries).map (f key) := by
  induction entries with
  | nil => rfl
  | cons e rest ih =>
    obtain ⟨k, v⟩ := e
    rw [List.map_cons, lookup, lookup]
    split
    · rename_i hk
      subst hk
      rfl
    · exact ih

theorem find?_mapValues (f : String → α → β) (m : Keyed α) (key : String) :
    (m.mapValues f).find? key = (m.find? key).map (f key) := lookup_mapValues f key m.entries

end Keyed

end RecordFilter
