/-! Sets of record ids in increasing order. -/

namespace RecordFilter.Compile

/-- The ids of a set, each once and in increasing order. -/
structure IdSet where
  toList : List Int
  increasing : toList.Pairwise (· < ·)
deriving DecidableEq, Repr

namespace IdSet

/-- Puts an id at its place in an increasing list. -/
def place (id : Int) : List Int → List Int
  | [] => [id]
  | x :: rest =>
    if id < x then id :: x :: rest else if id = x then x :: rest else x :: place id rest

theorem mem_place {x id : Int} {ids : List Int} : x ∈ place id ids ↔ x = id ∨ x ∈ ids := by
  induction ids with
  | nil => simp [place]
  | cons y rest ih =>
    unfold place
    split
    · simp
    · split
      · rename_i h
        subst h
        simp
      · simp only [List.mem_cons, ih]
        constructor <;> rintro (h | h | h) <;> simp [h]

/-- The order survives a new id. -/
theorem increasing_place (id : Int) {ids : List Int} (h : ids.Pairwise (· < ·)) :
    (place id ids).Pairwise (· < ·) := by
  induction ids with
  | nil => exact List.pairwise_singleton _ _
  | cons y rest ih =>
    obtain ⟨first, others⟩ := List.pairwise_cons.1 h
    unfold place
    split
    · rename_i small
      refine List.pairwise_cons.2 ⟨fun x hx => ?_, h⟩
      rcases List.mem_cons.1 hx with rfl | hx
      · exact small
      · exact Int.lt_trans small (first x hx)
    · split
      · exact h
      · refine List.pairwise_cons.2 ⟨fun x hx => ?_, ih others⟩
        rcases mem_place.1 hx with rfl | hx
        · omega
        · exact first x hx

/-- No ids. -/
def empty : IdSet := ⟨[], .nil⟩

/-- Adds an id. -/
def add (s : IdSet) (id : Int) : IdSet := ⟨place id s.toList, increasing_place id s.increasing⟩

/-- Adds some ids. -/
def addAll (s : IdSet) (ids : List Int) : IdSet := ids.foldl add s

/-- The set of some ids. -/
def ofList (ids : List Int) : IdSet := empty.addAll ids

/-- Whether an id is in the set. -/
def contains (s : IdSet) (id : Int) : Bool := s.toList.contains id

theorem mem_addAll {x : Int} {s : IdSet} {ids : List Int} :
    x ∈ (s.addAll ids).toList ↔ x ∈ ids ∨ x ∈ s.toList := by
  induction ids generalizing s with
  | nil => simp [addAll]
  | cons id rest ih =>
    have step : s.addAll (id :: rest) = (s.add id).addAll rest := rfl
    rw [step, ih]
    simp only [add, mem_place, List.mem_cons]
    constructor
    · rintro (h | h | h) <;> simp [h]
    · rintro ((h | h) | h) <;> simp [h]

/-- A set made of a list holds just the members of the list. -/
theorem mem_ofList {x : Int} {ids : List Int} : x ∈ (ofList ids).toList ↔ x ∈ ids := by
  simp [ofList, mem_addAll, empty]

end IdSet

end RecordFilter.Compile
