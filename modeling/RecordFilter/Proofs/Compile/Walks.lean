import RecordFilter.Proofs.Compile.Forests
import RecordFilter.Proofs.Compile.Settling
import RecordFilter.Proofs.Domain.Leaves

/-! What is asked for a hierarchy over a forest of records: by stored paths the records whose paths start with those of
    the roots, or the ids on the paths of the roots; over parent links the ids that are met level by level. The links
    are searched as the caller's context searches, so where it hides records out of use no descendant is met below
    them. -/

open Relation (ReflTransGen)

namespace RecordFilter

namespace Run
variable {α β : Type} {P : α → Prop}

/-- An answer is recorded as one call. -/
theorem gives_answer {c : Call} {answers : List Call → Except Error α} {t : Trace} {a : α}
    (h : answers t.calls = .ok a) :
    (record c >>= fun history => ofExcept (answers history)).Gives t a { t with calls := t.calls ++ [c] } := by
  refine gives_bind.mpr ⟨t.calls, _, rfl, ?_⟩
  rw [h]
  rfl

/-- From every trace the run gives something in `P`. -/
def Delivers (r : Run α) (P : α → Prop) : Prop := ∀ t, ∃ a t', r.Gives t a t' ∧ P a

namespace Delivers

theorem pure {a : α} (h : P a) : (Pure.pure a : Run α).Delivers P := fun t => ⟨a, t, rfl, h⟩

theorem bind {x : Run α} {f : α → Run β} {Q : β → Prop} (hx : x.Delivers P) (hf : ∀ a, P a → (f a).Delivers Q) :
    (x >>= f).Delivers Q := by
  intro t
  obtain ⟨a, t₁, ha, hP⟩ := hx t
  obtain ⟨b, t₂, hb, hQ⟩ := hf a hP t₁
  exact ⟨b, t₂, gives_bind.mpr ⟨a, t₁, ha, hb⟩, hQ⟩

theorem imp {r : Run α} {Q : α → Prop} (h : r.Delivers P) (hPQ : ∀ a, P a → Q a) : r.Delivers Q := by
  intro t
  obtain ⟨a, t', ha, hP⟩ := h t
  exact ⟨a, t', ha, hPQ a hP⟩

theorem log (e : Log.Event) (fields : List (String × String)) : (Run.log e fields).Delivers fun _ => True := fun _ =>
  ⟨(), _, rfl, trivial⟩

/-- An answer that is as it should be whatever was asked before. -/
theorem answer {c : Call} {answers : List Call → Except Error α} (h : ∀ history, ∃ a, answers history = .ok a ∧ P a) :
    (record c >>= fun history => ofExcept (answers history)).Delivers P := by
  intro t
  obtain ⟨a, ha, hP⟩ := h t.calls
  exact ⟨a, _, gives_answer ha, hP⟩

end Delivers
end Run

open Compile

/-- The records that a search in the context shows. -/
def Context.Shows (ctx : Context) (n : Node) : Prop := ctx.activeTest = true → n.active = true

/-- Asked about the records of a model, the database answers for a forest. It finds those below some others, without
    those out of use where the search hides them. -/
structure Backend.Knows (b : Backend) (m : Model) (F : Forest) : Prop where
  children : ∀ history ids activeTest, ∃ found,
    b.search history m (.ofLeaf m.parentName .within (.value (.ofIds ids))) { privileged := true, activeTest } =
        .ok found ∧
      ∀ x, x ∈ found ↔
        ∃ n ∈ F.nodes, n.id = x ∧ (∃ y ∈ ids, n.parent = some y) ∧ (activeTest = true → n.active = true)
  parents : ∀ history ids, ∃ found, b.references history m ids m.parentName = .ok found ∧
    ∀ x, x ∈ found ↔ ∃ n ∈ F.nodes, n.id ∈ ids ∧ n.parent = some x
  paths : m.parentStore = true → ∀ history ids, ∃ found, b.parentPaths history m ids = .ok found ∧
    ∀ p, p ∈ found ↔ ∃ n ∈ F.nodes, n.id ∈ ids ∧ p = (n.id, n.path)

/-- Asked for stored paths, the database gives those of the records that are there. -/
def Backend.KnowsPaths (b : Backend) (m : Model) (F : Forest) : Prop :=
  ∀ history ids, ∃ found, b.parentPaths history m ids = .ok found ∧
    ∀ p, p ∈ found ↔ ∃ n ∈ F.nodes, n.id ∈ ids ∧ p = (n.id, n.path)

/-- Asked what is linked to some ids, the database answers with their successors, in any order and as often as it
    likes. Only a search for descendants minds records out of use. -/
def Backend.Links (b : Backend) (dir : Direction) (m : Model) (parent : String) (activeTest : Bool)
    (next : Int → Int → Prop) : Prop :=
  ∀ history (ids : IdSet), ids.toList ≠ [] → ∃ found : List Int,
    (match dir with
      | .descendants =>
        b.search history m (.ofLeaf parent .within (.value (.ofIds ids.toList))) { privileged := true, activeTest }
      | .ancestors => b.references history m ids.toList parent) = .ok found ∧
    ∀ x, x ∈ found ↔ ∃ y ∈ ids.toList, next y x

namespace Compile

variable {s : Setting} {m : Model} {F : Forest} {dir : Direction} {ids roots : List Int}

/-! ### Over links -/

/-- The links of a forest, as far as the context shows its records. -/
theorem links_of_knows (hb : s.backend.Knows m F) (dir : Direction) :
    s.backend.Links dir m m.parentName s.context.activeTest (F.Next s.context.Shows dir) := by
  intro history ids _
  cases dir with
  | descendants =>
    obtain ⟨found, hfound, hmem⟩ := hb.children history ids.toList s.context.activeTest
    refine ⟨found, hfound, fun x => (hmem x).trans ?_⟩
    constructor
    · rintro ⟨n, hn, hid, ⟨y, hy, hparent⟩, hshown⟩
      exact ⟨y, hy, n, hn, hid, hparent, hshown⟩
    · rintro ⟨y, hy, n, hn, hid, hparent, hshown⟩
      exact ⟨n, hn, hid, ⟨y, hy, hparent⟩, hshown⟩
  | ancestors =>
    obtain ⟨found, hfound, hmem⟩ := hb.parents history ids.toList
    refine ⟨found, hfound, fun x => (hmem x).trans ?_⟩
    constructor
    · rintro ⟨n, hn, hid, hparent⟩
      exact ⟨n.id, hid, n, hn, rfl, hparent⟩
    · rintro ⟨_, hid, n, hn, rfl, hparent⟩
      exact ⟨n, hn, hid, hparent⟩

/-- One level takes one call, and gives the successors. -/
theorem nextLevel_gives {parent : String} {next : Int → Int → Prop}
    (hlinks : s.backend.Links dir m parent s.context.activeTest next) {ids : IdSet} (hids : ids.toList ≠ [])
    (t : Trace) :
    ∃ found t', (nextLevel s dir m parent ids.toList).Gives t found t' ∧ (∃ c, t'.calls = t.calls ++ [c]) ∧
      ∀ x, x ∈ found ↔ ∃ y ∈ ids.toList, next y x := by
  obtain ⟨found, hfound, hmem⟩ := hlinks t.calls ids hids
  cases dir with
  | descendants => exact ⟨found, _, Run.gives_answer hfound, ⟨_, rfl⟩, hmem⟩
  | ancestors => exact ⟨found, _, Run.gives_answer hfound, ⟨_, rfl⟩, hmem⟩

/-- What is met over links from some roots within some number of levels is all that is met. -/
def Complete (next : Int → Int → Prop) (roots : List Int) (levels : Nat) : Prop :=
  ∀ x, Met next roots (levels + 1) x → Met next roots levels x

theorem Complete.mono {next : Int → Int → Prop} {levels more : Nat} (h : Complete next roots levels)
    (hle : levels ≤ more) : Complete next roots more := by
  have later : ∀ {x}, Met next roots levels x → Met next roots more x := fun hmet => by
    induction hle with
    | refl => exact hmet
    | step _ ih => exact ih.succ
  exact fun x hmet => later (hmet.of_stable h)

/-- A walk after some levels: it has visited what is met in so many, and its frontier is what the next level adds. -/
structure Walking (next : Int → Int → Prop) (roots : List Int) (levels : Nat) (visited frontier : IdSet) : Prop where
  visited : ∀ x, x ∈ visited.toList ↔ Met next roots levels x
  frontier : ∀ x, x ∈ frontier.toList ↔ Met next roots (levels + 1) x ∧ ¬Met next roots levels x

namespace Walking
variable {next : Int → Int → Prop} {levels : Nat} {visited frontier : IdSet}

theorem start (next : Int → Int → Prop) (roots : List Int) : Walking next roots 0 .empty (.ofList roots) where
  visited x := iff_of_false nofun nofun
  frontier x := by
    rw [IdSet.mem_ofList]
    refine ⟨fun h => ⟨.inl h, nofun⟩, ?_⟩
    rintro ⟨h | ⟨y, hy, -⟩, -⟩
    · exact h
    · cases hy

theorem step (h : Walking next roots levels visited frontier) {found : List Int}
    (hfound : ∀ x, x ∈ found ↔ ∃ y ∈ frontier.toList, next y x) :
    Walking next roots (levels + 1) (visited.addAll frontier.toList)
      (.ofList (found.filter (!(visited.addAll frontier.toList).contains ·))) := by
  have hvisited : ∀ x, x ∈ (visited.addAll frontier.toList).toList ↔ Met next roots (levels + 1) x := by
    intro x
    rw [IdSet.mem_addAll, h.frontier, h.visited]
    by_cases hmet : Met next roots levels x
    · simp [hmet, hmet.succ]
    · simp [hmet]
  refine ⟨hvisited, fun x => ?_⟩
  rw [IdSet.mem_ofList, List.mem_filter, hfound]
  simp only [IdSet.contains, List.contains_iff_mem, Bool.not_eq_true', ← Bool.not_eq_true, hvisited]
  refine and_congr_left fun hnew => ⟨?_, ?_⟩
  · rintro ⟨y, hy, hlink⟩
    exact .inr ⟨y, ((h.frontier y).mp hy).1, hlink⟩
  · rintro (hroot | ⟨y, hy, hlink⟩)
    · exact absurd (.inl hroot) hnew
    · -- Were `y` met before, `x` would not be new.
      exact ⟨y, (h.frontier y).mpr ⟨hy, fun hmet => hnew (.inr ⟨y, hmet, hlink⟩)⟩, hlink⟩

theorem frontier_eq_nil_iff (h : Walking next roots levels visited frontier) :
    frontier.toList = [] ↔ Complete next roots levels := by
  rw [List.eq_nil_iff_forall_not_mem]
  refine forall_congr' fun x => ?_
  rw [h.frontier, not_and, Classical.not_not]

/-- At its end a walk has visited all that can be reached. -/
theorem mem_visited (h : Walking next roots levels visited frontier) (hcomplete : Complete next roots levels)
    {x : Int} : x ∈ visited.toList ↔ ∃ r ∈ roots, ReflTransGen next r x := by
  rw [h.visited, ← exists_met_iff]
  exact ⟨fun hmet => ⟨levels, hmet⟩, fun ⟨more, hmet⟩ => hmet.of_stable hcomplete⟩

end Walking

/-- Whatever is linked to what, a walk takes at most one call a round. Complete within its rounds, it gives what can be
    reached; otherwise it stops at the limit. -/
theorem walk_run {parent : String} {next : Int → Int → Prop}
    (hlinks : s.backend.Links dir m parent s.context.activeTest next) {levels rounds : Nat} {visited frontier : IdSet}
    (hwalking : Walking next roots levels visited frontier) (t : Trace) :
    ∃ t' asked, t'.calls = t.calls ++ asked ∧ asked.length ≤ rounds ∧
      (Complete next roots (levels + rounds) →
        ∃ found : IdSet, (walk s dir m parent rounds visited frontier).Gives t found t' ∧
          ∀ x, x ∈ found.toList ↔ ∃ r ∈ roots, ReflTransGen next r x) ∧
      (¬Complete next roots (levels + rounds) →
        (walk s dir m parent rounds visited frontier).Stops t
          (.error (.hierarchyLimit m.name s.context.maxIterations)) t') := by
  induction rounds generalizing levels visited frontier t with
  | zero =>
    refine ⟨t, [], (List.append_nil _).symm, Nat.le_refl _, fun hcomplete => ?_, fun hincomplete => ?_⟩
    · refine ⟨visited, ?_, fun x => hwalking.mem_visited hcomplete⟩
      rw [walk, hwalking.frontier_eq_nil_iff.mpr hcomplete]
      rfl
    · have hne : frontier.toList.isEmpty ≠ true := fun h =>
        hincomplete (hwalking.frontier_eq_nil_iff.mp (List.isEmpty_iff.mp h))
      rw [walk, if_neg hne]
      rfl
  | succ rounds ih =>
    by_cases hcomplete : Complete next roots levels
    · have hwalk : walk s dir m parent (rounds + 1) visited frontier = pure visited := by
        rw [walk, hwalking.frontier_eq_nil_iff.mpr hcomplete]
        rfl
      refine ⟨t, [], (List.append_nil _).symm, Nat.zero_le _, fun _ => ?_, fun h => ?_⟩
      · rw [hwalk]
        exact ⟨visited, rfl, fun x => hwalking.mem_visited hcomplete⟩
      · exact absurd (hcomplete.mono (Nat.le_add_right _ _)) h
    · have hne : frontier.toList ≠ [] := fun h => hcomplete (hwalking.frontier_eq_nil_iff.mp h)
      obtain ⟨found, t₁, hfound, ⟨c, hc⟩, hmem⟩ := nextLevel_gives hlinks hne t
      obtain ⟨t', asked, hcalls, hlength, hgives, hstops⟩ := ih (hwalking.step hmem) t₁
      rw [Nat.add_right_comm, Nat.add_assoc] at hgives hstops
      rw [walk, if_neg (fun h => hne (List.isEmpty_iff.mp h))]
      refine ⟨t', c :: asked, ?_, Nat.succ_le_succ hlength, fun h => ?_, fun h => ?_⟩
      · rw [hcalls, hc, List.append_assoc, List.singleton_append]
      · obtain ⟨reached, hreached, hclosure⟩ := hgives h
        exact ⟨reached, Run.gives_bind.mpr ⟨found, t₁, hfound, hreached⟩, hclosure⟩
      · exact Run.stops_bind.mpr (.inr ⟨found, t₁, hfound, hstops h⟩)

/-! ### Domains of hierarchies -/

/-- The leaf of the records whose paths start with one. -/
def startsWith (path : String) : Leaf := ⟨"parent_path", .eqLike, .value (.str (path ++ "%"))⟩

/-- A domain that asks for some of the records of a forest: by their ids, or by what their paths start with. -/
inductive AsksFor (m : Model) (F : Forest) (P : Node → Prop) : Domain → Prop
  | ids {ids : List Int} : (∀ x ∈ ids, Text.Fits x) → (∀ n ∈ F.nodes, n.id ∈ ids ↔ P n) →
      AsksFor m F P (.ofLeaf "id" .within (.value (.ofIds ids)))
  | paths {paths : List String} : m.parentStore = true → (∀ p ∈ paths, ∃ k ∈ F.nodes, p = k.path) →
      (∀ n ∈ F.nodes, (∃ p ∈ paths, p.toList <+: n.path.toList) ↔ P n) →
      AsksFor m F P (Term.disj ((paths.map startsWith).map .leaf)).spell

/-- What is met is a root or a record of the forest. -/
theorem fits_of_reach {seen : Node → Prop} (hroots : ∀ r ∈ roots, Text.Fits r) {r x : Int} (hr : r ∈ roots)
    (h : ReflTransGen (F.Next seen dir) r x) : Text.Fits x := by
  cases h with
  | refl => exact hroots r hr
  | tail _ hnext =>
    cases dir with
    | descendants =>
      obtain ⟨n, hn, rfl, -⟩ := hnext
      exact F.fits n hn
    | ancestors =>
      obtain ⟨n, hn, -, hparent⟩ := hnext
      obtain ⟨k, hk, rfl, -⟩ := F.child n hn x hparent
      exact F.fits k hk

/-- Over links, the domain of a hierarchy asks for the records that are related to the roots over records that the
    context shows. -/
theorem byLinks_delivers (hb : s.backend.Knows m F) (hroots : ∀ r ∈ roots, Text.Fits r)
    (hcomplete : Complete (F.Next s.context.Shows dir) roots s.context.maxIterations) :
    (byLinks s dir m m.parentName roots).Delivers (AsksFor m F (F.Related s.context.Shows dir roots)) := by
  unfold byLinks
  have hwalk : (walk s dir m m.parentName s.context.maxIterations .empty (.ofList roots)).Delivers fun found =>
      ∀ x, x ∈ found.toList ↔ ∃ r ∈ roots, ReflTransGen (F.Next s.context.Shows dir) r x := by
    intro t
    obtain ⟨t', -, -, -, hgives, -⟩ := walk_run (links_of_knows hb dir) (.start _ roots) t
    obtain ⟨found, hfound, hreach⟩ := hgives (by rwa [Nat.zero_add])
    exact ⟨found, t', hfound, hreach⟩
  refine .bind hwalk fun found hfound => ?_
  refine .bind (.log _ _) fun _ _ => .pure (.ids (fun x hx => ?_) fun n hn => ?_)
  · obtain ⟨r, hr, hreach⟩ := (hfound x).mp hx
    exact fits_of_reach hroots hr hreach
  · rw [hfound, Forest.related_iff hn]

/-- The ids on the stored paths of some records. -/
theorem pathIds_eq_ok {paths : List (Int × String)} (hpaths : ∀ p ∈ paths, ∃ n ∈ F.nodes, p = (n.id, n.path))
    (m : Model) (found : IdSet) :
    ∃ ids, pathIds m found paths = .ok ids ∧
      ∀ x, x ∈ ids.toList ↔ x ∈ found.toList ∨ ∃ n ∈ F.nodes, (n.id, n.path) ∈ paths ∧ x ∈ n.trail := by
  induction paths generalizing found with
  | nil => exact ⟨found, rfl, fun x => by simp⟩
  | cons p rest ih =>
    obtain ⟨⟨n, hn, rfl⟩, hrest⟩ := List.forall_mem_cons.mp hpaths
    obtain ⟨ids, hids, hmem⟩ := ih hrest (found.addAll n.trail)
    have hlabels : labelIds? (labels n.path.toList) = some n.trail := by
      rw [Node.path, String.toList_ofList, labelIds?_pathText (F.fits_trail n hn)]
    refine ⟨ids, ?_, fun x => ?_⟩
    · rw [pathIds, hlabels]
      exact hids
    · rw [hmem, IdSet.mem_addAll]
      constructor
      · rintro ((hx | hx) | ⟨k, hk, hin, hx⟩)
        · exact .inr ⟨n, hn, List.mem_cons_self, hx⟩
        · exact .inl hx
        · exact .inr ⟨k, hk, List.mem_cons_of_mem _ hin, hx⟩
      · rintro (hx | ⟨k, hk, hin, hx⟩)
        · exact .inl (.inr hx)
        · rcases List.mem_cons.mp hin with heq | hin
          · cases F.apart k hk n hn (congrArg Prod.fst heq)
            exact .inl (.inl hx)
          · exact .inr ⟨k, hk, hin, hx⟩

/-- By stored paths, the domain of the ancestors lists the ids on the paths of the roots. -/
theorem ancestorsByPath_delivers (hb : s.backend.KnowsPaths m F) (roots : List Int) :
    (ancestorsByPath s m roots).Delivers fun d => ∃ ids : IdSet,
      d = .ofLeaf "id" .within (.value (.ofIds ids.toList)) ∧
      ∀ x, x ∈ ids.toList ↔ ∃ k ∈ F.nodes, k.id ∈ roots ∧ x ∈ k.trail := by
  unfold ancestorsByPath
  refine .bind (.answer fun history => hb history roots) fun paths hpaths => ?_
  have hstored : ∀ p ∈ paths, ∃ n ∈ F.nodes, p = (n.id, n.path) := fun p hp => by
    obtain ⟨n, hn, -, heq⟩ := (hpaths p).mp hp
    exact ⟨n, hn, heq⟩
  obtain ⟨ids, hids, hmem⟩ := pathIds_eq_ok hstored m .empty
  rw [hids]
  refine .bind (.pure (P := (· = ids)) rfl) fun _ heq => ?_
  subst heq
  refine .bind (.log _ _) fun _ _ => .pure ⟨_, rfl, fun x => ?_⟩
  rw [hmem]
  constructor
  · rintro (hx | ⟨n, hn, hin, hx⟩)
    · cases hx
    · obtain ⟨k, hk, hroot, heq⟩ := (hpaths _).mp hin
      cases F.apart n hn k hk (congrArg Prod.fst heq)
      exact ⟨n, hn, hroot, hx⟩
  · rintro ⟨k, hk, hroot, hx⟩
    exact .inr ⟨k, hk, (hpaths _).mpr ⟨k, hk, hroot, rfl⟩, hx⟩

/-- The domain of the descendants compares paths with those of the roots. -/
theorem descendantsByPath_delivers (hb : s.backend.KnowsPaths m F) (roots : List Int) :
    (descendantsByPath s m roots).Delivers fun d => ∃ paths : List String,
      d = (Term.disj ((paths.map startsWith).map .leaf)).spell ∧
      ∀ path, path ∈ paths ↔ ∃ k ∈ F.nodes, k.id ∈ roots ∧ path = k.path := by
  unfold descendantsByPath
  refine .bind (.answer fun history => hb history roots) fun paths hpaths => ?_
  refine .bind (.log _ _) fun _ _ => ?_
  have hdomain : pathDomain paths = .ok (Term.disj (((paths.map (·.2)).map startsWith).map .leaf)).spell := by
    rw [← Domain.anyOf_leaves, List.map_map, List.map_map]
    rfl
  rw [hdomain]
  refine .pure ⟨paths.map (·.2), rfl, fun path => ?_⟩
  constructor
  · intro hpath
    obtain ⟨⟨id, _⟩, hin, rfl⟩ := List.mem_map.mp hpath
    obtain ⟨k, hk, hroot, heq⟩ := (hpaths _).mp hin
    exact ⟨k, hk, hroot, congrArg Prod.snd heq⟩
  · rintro ⟨k, hk, hroot, rfl⟩
    exact List.mem_map.mpr ⟨(k.id, k.path), (hpaths _).mpr ⟨k, hk, hroot, rfl⟩, rfl⟩

/-- A model that stores paths has its own hierarchy followed by them. -/
theorem hierarchy_of_parentStore (hstore : m.parentStore = true) (dir : Direction) (roots : List Int) :
    hierarchy s dir roots m none =
      match dir with
      | .descendants => descendantsByPath s m roots
      | .ancestors => ancestorsByPath s m roots := by
  have hown : (m.parentStore && decide (m.parentName = m.parentName)) = true := by simp [hstore]
  unfold hierarchy
  exact if_pos hown

/-- By stored paths, the domain of a hierarchy asks for the records that are related to the roots over any records. -/
theorem hierarchy_by_path (hb : s.backend.Knows m F) (hstore : m.parentStore = true) (dir : Direction)
    (roots : List Int) :
    (hierarchy s dir roots m none).Delivers (AsksFor m F (F.Related (fun _ => True) dir roots)) := by
  rw [hierarchy_of_parentStore hstore]
  cases dir with
  | descendants =>
    refine (descendantsByPath_delivers (hb.paths hstore) roots).imp ?_
    rintro _ ⟨paths, rfl, hpaths⟩
    refine .paths hstore (fun path hpath => ?_) fun n hn => ?_
    · obtain ⟨k, hk, -, rfl⟩ := (hpaths path).mp hpath
      exact ⟨k, hk, rfl⟩
    · constructor
      · rintro ⟨path, hpath, hprefix⟩
        obtain ⟨k, hk, hroot, rfl⟩ := (hpaths path).mp hpath
        exact ⟨k, hk, hroot, (Forest.prefix_path_iff hn hk).mp hprefix⟩
      · rintro ⟨k, hk, hroot, hclimbs⟩
        exact ⟨k.path, (hpaths _).mpr ⟨k, hk, hroot, rfl⟩, (Forest.prefix_path_iff hn hk).mpr hclimbs⟩
  | ancestors =>
    refine (ancestorsByPath_delivers (hb.paths hstore) roots).imp ?_
    rintro _ ⟨ids, rfl, hids⟩
    refine .ids (fun x hx => ?_) fun n hn => ?_
    · obtain ⟨k, hk, -, hx⟩ := (hids x).mp hx
      exact F.fits_trail k hk x hx
    · rw [hids]
      exact exists_congr fun k => and_congr_right fun hk => and_congr_right fun _ => Forest.mem_trail_iff hk hn

/-- Over links, of the records that are related to the roots over records that the context shows. -/
theorem hierarchy_by_links (hb : s.backend.Knows m F) (hstore : m.parentStore = false)
    (hroots : ∀ r ∈ roots, Text.Fits r)
    (hcomplete : Complete (F.Next s.context.Shows dir) roots s.context.maxIterations) :
    (hierarchy s dir roots m none).Delivers (AsksFor m F (F.Related s.context.Shows dir roots)) := by
  unfold hierarchy
  simp only [Option.getD_none, hstore, Bool.false_and, Bool.false_eq_true, if_false]
  exact byLinks_delivers hb hroots hcomplete

end Compile
end RecordFilter
