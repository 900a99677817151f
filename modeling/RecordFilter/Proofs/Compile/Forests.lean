import Mathlib.Logic.Relation
import RecordFilter.Proofs.Compile.PathTexts

/-! Forests of records. Each record has the id of its parent and the ids on the path from its root down to it, and the
    two agree. So one record is above another just where its path is the beginning of the other one's. Following the
    links level by level, from some ids on, meets the records that can be reached over links. -/

open Relation (ReflTransGen)

namespace RecordFilter.Compile

/-- A record of a forest: its id and that of its parent, the ids on the path from the root down to it, and whether it is
    in use. -/
structure Node where
  id : Int
  parent : Option Int
  trail : List Int
  active : Bool
deriving DecidableEq

/-- The stored path. -/
def Node.path (n : Node) : String := String.ofList (pathText n.trail)

/-- Records with ids of their own, whose paths are made up by their links. -/
structure Forest where
  nodes : List Node
  fits : ∀ n ∈ nodes, Text.Fits n.id
  apart : ∀ n ∈ nodes, ∀ k ∈ nodes, n.id = k.id → n = k
  root : ∀ n ∈ nodes, n.parent = none → n.trail = [n.id]
  child : ∀ n ∈ nodes, ∀ x, n.parent = some x → ∃ k ∈ nodes, k.id = x ∧ n.trail = k.trail ++ [n.id]

namespace Forest
variable {F : Forest} {seen : Node → Prop} {n k : Node} {roots : List Int} {x : Int}

/-- The link from a record to its parent. -/
def Child (F : Forest) (n k : Node) : Prop := n ∈ F.nodes ∧ k ∈ F.nodes ∧ n.parent = some k.id

/-- From one record to another one over links that start at records that are seen. -/
def Climbs (F : Forest) (seen : Node → Prop) : Node → Node → Prop := ReflTransGen fun n k => F.Child n k ∧ seen n

theorem trail_of_child (h : F.Child n k) : n.trail = k.trail ++ [n.id] := by
  obtain ⟨hn, hk, hparent⟩ := h
  obtain ⟨k', hk', hid, htrail⟩ := F.child n hn k.id hparent
  rw [htrail, F.apart k' hk' k hk hid]

theorem Climbs.all (h : F.Climbs seen n k) : F.Climbs (fun _ => True) n k := by
  induction h with
  | refl => exact .refl
  | tail _ hstep ih => exact ih.tail ⟨hstep.1, trivial⟩

/-- What holds of the roots, and of the children of records of which it holds, holds of all records. -/
theorem induction {P : Node → Prop} (hroot : ∀ n ∈ F.nodes, n.trail = [n.id] → P n)
    (hchild : ∀ n k, F.Child n k → P k → P n) : ∀ n ∈ F.nodes, P n := by
  -- Paths get longer from parent to child.
  have bounded : ∀ len, ∀ n ∈ F.nodes, n.trail.length ≤ len → P n := by
    intro len
    induction len with
    | zero =>
      intro n hn hlen
      cases hparent : n.parent with
      | none =>
        rw [F.root n hn hparent] at hlen
        cases hlen
      | some x =>
        obtain ⟨k, -, -, htrail⟩ := F.child n hn x hparent
        rw [htrail, List.length_append] at hlen
        cases hlen
    | succ len ih =>
      intro n hn hlen
      cases hparent : n.parent with
      | none => exact hroot n hn (F.root n hn hparent)
      | some x =>
        obtain ⟨k, hk, rfl, htrail⟩ := F.child n hn x hparent
        rw [htrail, List.length_append] at hlen
        exact hchild n k ⟨hn, hk, hparent⟩ (ih k hk (Nat.le_of_succ_le_succ hlen))
  exact fun n hn => bounded n.trail.length n hn (Nat.le_refl _)

/-! ### Paths -/

theorem fits_trail : ∀ n ∈ F.nodes, ∀ x ∈ n.trail, Text.Fits x := by
  refine F.induction (fun n hn htrail x hx => ?_) fun n k hchild ih x hx => ?_
  · rw [htrail] at hx
    cases List.mem_singleton.mp hx
    exact F.fits n hn
  · rw [trail_of_child hchild] at hx
    rcases List.mem_append.mp hx with hx | hx
    · exact ih x hx
    · cases List.mem_singleton.mp hx
      exact F.fits n hchild.1

/-- A path ends with the record itself. -/
theorem id_mem_trail : ∀ n ∈ F.nodes, n.id ∈ n.trail := by
  refine F.induction (fun n hn htrail => ?_) fun n k hchild _ => ?_
  · rw [htrail]
    exact List.mem_singleton_self _
  · rw [trail_of_child hchild]
    exact List.mem_append_right _ (List.mem_singleton_self _)

/-- The ids on a path are those of the records above. -/
theorem climbs_of_mem_trail : ∀ n ∈ F.nodes, ∀ x ∈ n.trail, ∃ k ∈ F.nodes, k.id = x ∧ F.Climbs (fun _ => True) n k := by
  refine F.induction (fun n hn htrail x hx => ?_) fun n k hchild ih x hx => ?_
  · rw [htrail] at hx
    cases List.mem_singleton.mp hx
    exact ⟨n, hn, rfl, .refl⟩
  · rw [trail_of_child hchild] at hx
    rcases List.mem_append.mp hx with hx | hx
    · obtain ⟨k', hk', hid, hclimbs⟩ := ih x hx
      exact ⟨k', hk', hid, hclimbs.head ⟨hchild, trivial⟩⟩
    · cases List.mem_singleton.mp hx
      exact ⟨n, hchild.1, rfl, .refl⟩

theorem Climbs.prefix_trail (h : F.Climbs seen n k) : k.trail <+: n.trail := by
  induction h with
  | refl => exact List.prefix_rfl
  | tail _ hstep ih =>
    refine List.IsPrefix.trans ?_ ih
    rw [trail_of_child hstep.1]
    exact List.prefix_append _ _

/-- One record is above another just where its path is the beginning of the other one's. -/
theorem prefix_trail_iff (hn : n ∈ F.nodes) (hk : k ∈ F.nodes) :
    k.trail <+: n.trail ↔ F.Climbs (fun _ => True) n k := by
  refine ⟨fun h => ?_, Climbs.prefix_trail⟩
  obtain ⟨k', hk', hid, hclimbs⟩ := F.climbs_of_mem_trail n hn k.id (h.subset (F.id_mem_trail k hk))
  exact F.apart k' hk' k hk hid ▸ hclimbs

theorem mem_trail_iff (hn : n ∈ F.nodes) (hk : k ∈ F.nodes) : k.id ∈ n.trail ↔ F.Climbs (fun _ => True) n k := by
  rw [← prefix_trail_iff hn hk]
  refine ⟨fun h => ?_, fun h => h.subset (F.id_mem_trail k hk)⟩
  obtain ⟨k', hk', hid, hclimbs⟩ := F.climbs_of_mem_trail n hn k.id h
  exact F.apart k' hk' k hk hid ▸ hclimbs.prefix_trail

/-- So do the texts of the paths. -/
theorem prefix_path_iff (hn : n ∈ F.nodes) (hk : k ∈ F.nodes) :
    k.path.toList <+: n.path.toList ↔ F.Climbs (fun _ => True) n k := by
  unfold Node.path
  rw [String.toList_ofList, String.toList_ofList, pathText_prefix_iff (F.fits_trail k hk) (F.fits_trail n hn),
    prefix_trail_iff hn hk]

end Forest

/-! ### Levels -/

/-- The ids that are met in fewer than some number of steps from the roots. -/
def Met (next : Int → Int → Prop) (roots : List Int) : Nat → Int → Prop
  | 0, _ => False
  | levels + 1, x => x ∈ roots ∨ ∃ y, Met next roots levels y ∧ next y x

section
variable {next : Int → Int → Prop} {roots : List Int} {x : Int} {levels : Nat}

theorem Met.succ (h : Met next roots levels x) : Met next roots (levels + 1) x := by
  induction levels generalizing x with
  | zero => cases h
  | succ levels ih =>
    rcases h with h | ⟨y, hy, hnext⟩
    · exact .inl h
    · exact .inr ⟨y, ih hy, hnext⟩

/-- What is met in any number of steps is what can be reached. -/
theorem exists_met_iff : (∃ levels, Met next roots levels x) ↔ ∃ r ∈ roots, ReflTransGen next r x := by
  constructor
  · rintro ⟨levels, h⟩
    induction levels generalizing x with
    | zero => cases h
    | succ levels ih =>
      rcases h with h | ⟨y, hy, hnext⟩
      · exact ⟨x, h, .refl⟩
      · obtain ⟨r, hr, hreach⟩ := ih hy
        exact ⟨r, hr, hreach.tail hnext⟩
  · rintro ⟨r, hr, hreach⟩
    induction hreach with
    | refl => exact ⟨1, .inl hr⟩
    | tail _ hnext ih =>
      obtain ⟨levels, h⟩ := ih
      exact ⟨levels + 1, .inr ⟨_, h, hnext⟩⟩

/-- Where one more level meets nothing new, no other level does. -/
theorem Met.of_stable (hstable : ∀ x, Met next roots (levels + 1) x → Met next roots levels x) {more : Nat}
    (h : Met next roots more x) : Met next roots levels x := by
  induction more generalizing x with
  | zero => cases h
  | succ more ih =>
    rcases h with h | ⟨y, hy, hnext⟩
    · exact hstable x (.inl h)
    · exact hstable x (.inr ⟨y, ih hy, hnext⟩)

end

namespace Forest
variable {F : Forest} {seen : Node → Prop} {dir : Direction} {n k : Node} {roots : List Int} {x : Int}

/-- From an id over a link in some direction: down to the records that are seen, or up to the parent. -/
def Next (F : Forest) (seen : Node → Prop) (dir : Direction) (y x : Int) : Prop :=
  match dir with
  | .descendants => ∃ n ∈ F.nodes, n.id = x ∧ n.parent = some y ∧ seen n
  | .ancestors => ∃ n ∈ F.nodes, n.id = y ∧ n.parent = some x

/-- The record or one above it is among the roots, the records below that being seen; or one below it is. -/
def Related (F : Forest) (seen : Node → Prop) (dir : Direction) (roots : List Int) (n : Node) : Prop :=
  ∃ k ∈ F.nodes, k.id ∈ roots ∧
    match dir with
    | .descendants => F.Climbs seen n k
    | .ancestors => F.Climbs (fun _ => True) k n

/-- Where no record that is seen has a parent that is not, roots apart, looking at those that are seen misses none. -/
theorem related_of_seen (hseen : dir = .descendants → ∀ n k, F.Child n k → seen n → seen k ∨ k.id ∈ roots)
    (hn : seen n) :
    F.Related (fun _ => True) dir roots n ↔ F.Related seen dir roots n := by
  cases dir with
  | ancestors => exact Iff.rfl
  | descendants =>
    constructor
    · rintro ⟨k, hk, hroot, hclimbs⟩
      induction hclimbs using ReflTransGen.head_induction_on with
      | refl => exact ⟨k, hk, hroot, .refl⟩
      | @head n n' hstep _ ih =>
        rcases hseen rfl n n' hstep.1 hn with hn' | hroot'
        · obtain ⟨k', hk', hroot', hclimbs'⟩ := ih hn'
          exact ⟨k', hk', hroot', hclimbs'.head ⟨hstep.1, hn⟩⟩
        · exact ⟨n', hstep.1.2.1, hroot', .single ⟨hstep.1, hn⟩⟩
    · rintro ⟨k, hk, hroot, hclimbs⟩
      exact ⟨k, hk, hroot, Climbs.all hclimbs⟩

theorem exists_climbs_of_reach (hn : n ∈ F.nodes) {r : Int} (h : ReflTransGen (F.Next seen .descendants) r n.id) :
    ∃ k ∈ F.nodes, k.id = r ∧ F.Climbs seen n k := by
  generalize hx : n.id = x at h
  induction h generalizing n with
  | refl => exact ⟨n, hn, hx, .refl⟩
  | tail _ hnext ih =>
    obtain ⟨n', hn', hid, hparent, hseen⟩ := hnext
    cases F.apart n' hn' n hn (hid.trans hx.symm)
    obtain ⟨k, hk, rfl, -⟩ := F.child n hn _ hparent
    obtain ⟨k', hk', hid', hclimbs⟩ := ih hk rfl
    exact ⟨k', hk', hid', hclimbs.head ⟨⟨hn, hk, hparent⟩, hseen⟩⟩

theorem exists_climbs_to_of_reach (hn : n ∈ F.nodes) {r : Int} (h : ReflTransGen (F.Next seen .ancestors) r n.id) :
    ∃ k ∈ F.nodes, k.id = r ∧ F.Climbs (fun _ => True) k n := by
  induction h using ReflTransGen.head_induction_on with
  | refl => exact ⟨n, hn, rfl, .refl⟩
  | head hnext _ ih =>
    obtain ⟨n', hn', hid, hparent⟩ := hnext
    obtain ⟨k, hk, rfl, hclimbs⟩ := ih
    exact ⟨n', hn', hid, hclimbs.head ⟨⟨hn', hk, hparent⟩, trivial⟩⟩

/-- The records that are reached from the roots are those that are related to them. -/
theorem related_iff (hn : n ∈ F.nodes) :
    F.Related seen dir roots n ↔ ∃ r ∈ roots, ReflTransGen (F.Next seen dir) r n.id := by
  cases dir with
  | descendants =>
    constructor
    · rintro ⟨k, -, hroot, hclimbs⟩
      refine ⟨k.id, hroot, ?_⟩
      clear hroot hn
      induction hclimbs with
      | refl => exact .refl
      | tail _ hstep ih => exact ih.head ⟨_, hstep.1.1, rfl, hstep.1.2.2, hstep.2⟩
    · rintro ⟨r, hroot, hreach⟩
      obtain ⟨k, hk, rfl, hclimbs⟩ := exists_climbs_of_reach hn hreach
      exact ⟨k, hk, hroot, hclimbs⟩
  | ancestors =>
    constructor
    · rintro ⟨k, -, hroot, hclimbs⟩
      refine ⟨k.id, hroot, ?_⟩
      clear hroot hn
      induction hclimbs with
      | refl => exact .refl
      | tail _ hstep ih => exact ih.tail ⟨_, hstep.1.1, rfl, hstep.1.2.2⟩
    · rintro ⟨r, hroot, hreach⟩
      obtain ⟨k, hk, rfl, hclimbs⟩ := exists_climbs_to_of_reach hn hreach
      exact ⟨k, hk, hroot, hclimbs⟩

end Forest
end RecordFilter.Compile
