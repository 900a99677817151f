import Mathlib.Data.Set.Card
import RecordFilter.Proofs.Compile.Hierarchies

/-! Walks over links of any shape, with circles in them as well as without. A walk visits the breadth-first levels of what
    can be reached from its roots, one a round, so the limit on its rounds is one on how many levels there are. -/

open Relation (ReflTransGen)

namespace RecordFilter.Compile

variable {next : Int → Int → Prop} {roots : List Int}

/-- A breadth-first level: the ids that some number of steps from the roots lead to, and no smaller number. -/
def Level (next : Int → Int → Prop) (roots : List Int) (steps : Nat) : Set Int :=
  {x | Met next roots (steps + 1) x ∧ ¬Met next roots steps x}

/-- How many levels are not empty. -/
noncomputable def levelCount (next : Int → Int → Prop) (roots : List Int) : ℕ∞ :=
  {steps | (Level next roots steps).Nonempty}.encard

theorem level_nonempty_iff {steps : Nat} : (Level next roots steps).Nonempty ↔ ¬Complete next roots steps := by
  simp only [Set.Nonempty, Level, Set.mem_ofPred_eq, Complete, not_forall, exists_prop]

/-- No level comes after an empty one. So the levels that are not empty are the first ones, and they are as many as some
    number or fewer just where no new id is met after so many. -/
theorem levelCount_le_iff {limit : Nat} : levelCount next roots ≤ limit ↔ Complete next roots limit := by
  constructor
  · intro hle
    refine Classical.byContradiction fun hincomplete => ?_
    have hfirst : ((Finset.range (limit + 1) : Finset Nat) : Set Nat) ⊆
        {steps | (Level next roots steps).Nonempty} := by
      intro steps hsteps
      have hle : steps ≤ limit := Nat.lt_succ_iff.mp (Finset.mem_range.mp hsteps)
      exact level_nonempty_iff.mpr fun hcomplete => hincomplete (hcomplete.mono hle)
    have hcard := Set.encard_le_encard hfirst
    rw [Set.encard_coe_eq_coe_finsetCard, Finset.card_range] at hcard
    exact absurd (Nat.cast_le.mp (hcard.trans hle)) (Nat.not_succ_le_self limit)
  · intro hcomplete
    have honly : {steps | (Level next roots steps).Nonempty} ⊆ ((Finset.range limit : Finset Nat) : Set Nat) := by
      intro steps hsteps
      refine Finset.mem_coe.mpr (Finset.mem_range.mpr (Nat.lt_of_not_le fun hle => ?_))
      exact level_nonempty_iff.mp hsteps (hcomplete.mono hle)
    have hcard := Set.encard_le_encard honly
    rwa [Set.encard_coe_eq_coe_finsetCard, Finset.card_range] at hcard

/-- Walking over links takes no more calls than the limit. Where there are no more levels than that, it gives all that can
    be reached from the roots, each id once and in increasing order; where there are more, the limit is the error. -/
theorem walk_exact {s : Setting} {dir : Direction} {m : Model} {parent : String}
    (hlinks : s.backend.Links dir m parent s.context.activeTest next) (roots : List Int) (t : Trace) :
    ∃ t' asked, t'.calls = t.calls ++ asked ∧ asked.length ≤ s.context.maxIterations ∧
      (levelCount next roots ≤ s.context.maxIterations →
        ∃ found : IdSet, (walk s dir m parent s.context.maxIterations .empty (.ofList roots)).Gives t found t' ∧
          found.toList.Pairwise (· < ·) ∧ ∀ x, x ∈ found.toList ↔ ∃ r ∈ roots, ReflTransGen next r x) ∧
      (s.context.maxIterations < levelCount next roots →
        (walk s dir m parent s.context.maxIterations .empty (.ofList roots)).Stops t
          (.error (.hierarchyLimit m.name s.context.maxIterations)) t') := by
  obtain ⟨t', asked, hcalls, hlength, hgives, hstops⟩ := walk_run hlinks (.start next roots) t
  rw [Nat.zero_add] at hgives hstops
  refine ⟨t', asked, hcalls, hlength, fun hfew => ?_, fun hmany => ?_⟩
  · obtain ⟨found, hfound, hreach⟩ := hgives (levelCount_le_iff.mp hfew)
    exact ⟨found, hfound, found.increasing, hreach⟩
  · exact hstops fun hcomplete => hmany.not_ge (levelCount_le_iff.mpr hcomplete)

/-- Three ids in a circle. -/
def following (y x : Int) : Prop := x = (y + 1) % 3

/-- A database in which each of three records leads to the next one, in either direction. -/
def circleBackend : Backend where
  search _ _ d _ := .ok ((askedIds d).map fun y => (y + 1) % 3)
  references _ _ ids _ := .ok (ids.map fun y => (y + 1) % 3)
  parentPaths _ _ _ := .ok []

/-- A setting with that database and a limit on how many levels are walked. -/
def circle (limit : Nat) : Setting where
  registry := taskCompiler.registry
  backend := circleBackend
  context := { taskCompiler.context with maxIterations := limit }

/-- Around the circle from one root, listed twice, there are three levels: with a limit of three the walk gives all ids,
    with one of two it stops. -/
theorem walk_exact_circle :
    (∀ dir limit, (circle limit).backend.Links dir taskModel "parent_id" (circle limit).context.activeTest following) ∧
      levelCount following [1, 1] ≤ 3 ∧ 2 < levelCount following [1, 1] ∧
      (∃ t' asked, t'.calls = asked ∧ asked.length ≤ 3 ∧ ∃ found : IdSet,
        (walk (circle 3) .descendants taskModel "parent_id" 3 .empty (.ofList [1, 1])).Gives {} found t' ∧
        found.toList.Pairwise (· < ·) ∧ ∀ x, x ∈ found.toList ↔ ∃ r ∈ [1, 1], ReflTransGen following r x) ∧
      ∃ t' asked, t'.calls = asked ∧ asked.length ≤ 2 ∧
        (walk (circle 2) .ancestors taskModel "parent_id" 2 .empty (.ofList [1, 1])).Stops {}
          (.error (.hierarchyLimit "task" 2)) t' := by
  have hlinks : ∀ dir limit,
      (circle limit).backend.Links dir taskModel "parent_id" (circle limit).context.activeTest following := by
    intro dir limit history ids _
    cases dir with
    | descendants =>
      refine ⟨_, rfl, fun x => ?_⟩
      rw [askedIds_ofIds]
      simp only [List.mem_map, following, eq_comm]
    | ancestors =>
      refine ⟨_, rfl, fun x => ?_⟩
      simp only [List.mem_map, following, eq_comm]
  have hfew : levelCount following [1, 1] ≤ (3 : Nat) := by
    refine levelCount_le_iff.mpr fun x hmet => ?_
    simp [Met, following] at hmet ⊢
    omega
  have hmany : (2 : Nat) < levelCount following [1, 1] := by
    refine lt_of_not_ge fun hle => ?_
    have := levelCount_le_iff.mp hle 0 (by simp [Met, following])
    simp [Met, following] at this
  refine ⟨hlinks, hfew, hmany, ?_, ?_⟩
  · obtain ⟨t', asked, hcalls, hlength, hgives, -⟩ := walk_exact (hlinks .descendants 3) [1, 1] {}
    exact ⟨t', asked, hcalls, hlength, hgives hfew⟩
  · obtain ⟨t', asked, hcalls, hlength, -, hstops⟩ := walk_exact (hlinks .ancestors 2) [1, 1] {}
    exact ⟨t', asked, hcalls, hlength, hstops hmany⟩

end RecordFilter.Compile
