import RecordFilter.Compiler
import RecordFilter.Proofs.Compile.Reduction
import RecordFilter.Proofs.Domain.Inward

/-! The machine that compiles a domain is a recursion over the tree of the domain: the part on the right
    of an operator comes before the one on the left, and a leaf is its condition or the value of what it
    is replaced by. The work of the machine mixes the tokens of several domains, but what stands in the
    stead of a leaf is always one term (`Reduces.complete`), so the work is the spelling of the trees
    still to do. -/

namespace RecordFilter.Compile
open Sql

variable {α β : Type}

/-- A term whose leaves are each read at a place of their own. -/
abbrev Tree := Term (Leaf × Place)

/-- The trees that some work spells one after the other, read from the right. -/
def trees? : List Work → Option (List Tree)
  | [] => some []
  | w :: rest => (trees? rest).bind (Term.put? (·, w.place) w.token)

/-! ### Recursion -/

/-- A run that carries a query along. The query is there also when it stops. -/
abbrev Building (α : Type) := ExceptT Stop (StateT Query (StateM Trace)) α

namespace Building

/-- A run that leaves the query as it is. -/
def ofRun (r : Run α) : Building α := ExceptT.mk (StateT.lift r.run)

/-- Changes the query. -/
def change (f : Query → Query) : Building Unit := modify f

/-- What becomes of a query after some calls. -/
def outcome (x : Building α) (q : Query) (t : Trace) : (Except Stop α × Query) × Trace := (x.run.run q).run t

end Building

/-- How the conditions of the parts of a term are put together. -/
structure Assembly (β : Type) where
  emit : Cond → β
  literal : Bool → β
  not : β → β
  and : β → β → β
  or : β → β → β

/-- Conditions are put together as data. -/
def Assembly.conditions : Assembly Cond := ⟨id, .literal, .not, .and, .or⟩

/-- Texts are put together between parentheses, their values in the order of the texts. -/
def Assembly.texts : Assembly Fragment where
  emit c := c.fragment
  literal b := ⟨if b then "TRUE" else "FALSE", []⟩
  not a := ⟨"(NOT (" ++ a.sql ++ "))", a.params⟩
  and a b := ⟨"(" ++ a.sql ++ " AND " ++ b.sql ++ ")", a.params ++ b.params⟩
  or a b := ⟨"(" ++ a.sql ++ " OR " ++ b.sql ++ ")", a.params ++ b.params⟩

/-- The value of a term, given those of its leaves. What stands on the right comes first. -/
def Assembly.term (k : Assembly β) (leaf : α → Building β) : Term α → Building β
  | .const b => return k.literal b
  | .leaf a => leaf a
  | .not t => return k.not (← k.term leaf t)
  | .and a b => do
    let right ← k.term leaf b
    let left ← k.term leaf a
    return k.and left right
  | .or a b => do
    let right ← k.term leaf b
    let left ← k.term leaf a
    return k.or left right

/-- The value of the one tree that some work spells. -/
def Assembly.work (k : Assembly β) (leaf : Leaf × Place → Building β) (items : List Work) : Building β :=
  match trees? items with
  | some [t] => k.term leaf t
  | _ => throw (.error (.malformed .notOneCondition))

/-- The value of a leaf, through at most `depth` replacements one after the other: its condition, or the
    value of what stands in its stead. -/
def Assembly.leaf (k : Assembly β) (s : Setting) (build : QueryBuilder) : Nat → Leaf × Place → Building β
  | 0, _ => throw .unfinished
  | depth + 1, (l, p) => do
    match ← Building.ofRun (reduce s build l p) with
    | .emit c => return k.emit c
    | .requeue items => k.work (k.leaf s build depth) items
    | .follow join item => do
      Building.change (·.addJoin join)
      k.work (k.leaf s build depth) [item]

/-- The value of a domain at a place: that of its tree once its negations are distributed. -/
def Assembly.domain (k : Assembly β) (s : Setting) (build : QueryBuilder) (depth : Nat) (p : Place) (d : Domain) :
    Building β :=
  match Domain.distributeNot d with
  | .error e => throw (.error e)
  | .ok e => k.work (k.leaf s build depth) (Work.ofDomain p e)

/-! ### Spelling -/

/-- Some work spells a tree. The places of operators and constants do not matter. -/
inductive Spells : List Work → Tree → Prop
  | always (p) : Spells [⟨.true, p⟩] (.const true)
  | never (p) : Spells [⟨.false, p⟩] (.const false)
  | leaf (l p) : Spells [⟨.leaf l, p⟩] (.leaf (l, p))
  | not {ws t} (p) : Spells ws t → Spells (⟨.not, p⟩ :: ws) (.not t)
  | and {ws us a b} (p) : Spells ws a → Spells us b → Spells (⟨.and, p⟩ :: (ws ++ us)) (.and a b)
  | or {ws us a b} (p) : Spells ws a → Spells us b → Spells (⟨.or, p⟩ :: (ws ++ us)) (.or a b)

theorem Spells.trees?_append {ws : List Work} {t : Tree} (h : Spells ws t) (rest : List Work) :
    trees? (ws ++ rest) = (trees? rest).map (t :: ·) := by
  induction h generalizing rest with
  | always p => cases hr : trees? rest <;> simp [trees?, Term.put?, hr]
  | never p => cases hr : trees? rest <;> simp [trees?, Term.put?, hr]
  | leaf l p => cases hr : trees? rest <;> simp [trees?, Term.put?, hr]
  | not p h ih => cases hr : trees? rest <;> simp [trees?, Term.put?, ih, hr]
  | and p ha hb iha ihb => cases hr : trees? rest <;> simp [trees?, Term.put?, List.append_assoc, iha, ihb, hr]
  | or p ha hb iha ihb => cases hr : trees? rest <;> simp [trees?, Term.put?, List.append_assoc, iha, ihb, hr]

theorem Spells.trees? {ws : List Work} {t : Tree} (h : Spells ws t) : trees? ws = some [t] := by
  have := h.trees?_append []
  rwa [List.append_nil] at this

theorem Spells.work_eq {ws : List Work} {t : Tree} (h : Spells ws t) (k : Assembly β)
    (leaf : Leaf × Place → Building β) : k.work leaf ws = k.term leaf t := by
  rw [Assembly.work, h.trees?]

/-- A domain of one term, all read at one place, spells the term there. -/
theorem spells_ofDomain (t : Term Leaf) (p : Place) : Spells (Work.ofDomain p t.spell) (t.map (·, p)) := by
  induction t with
  | const b => cases b <;> constructor
  | leaf l => exact .leaf l p
  | not t ih => exact .not p ih
  | and a b iha ihb =>
    show Spells (⟨.and, p⟩ :: (a.spell ++ b.spell).map _) _
    rw [List.map_append]
    exact .and p iha ihb
  | or a b iha ihb =>
    show Spells (⟨.or, p⟩ :: (a.spell ++ b.spell).map _) _
    rw [List.map_append]
    exact .or p iha ihb

theorem spells_of_distributeNot {d e : Domain} (h : Domain.distributeNot d = .ok e) (p : Place) :
    ∃ t, Spells (Work.ofDomain p e) t := by
  obtain ⟨ts, -, rfl⟩ := Domain.distributeNot_eq_ok h
  exact ⟨_, spells_ofDomain _ p⟩

/-- What stands in the stead of a leaf is one tree, and on a joined table one leaf. -/
def Step.Complete : Step → Prop
  | .emit _ => True
  | .requeue items => ∃ t, Spells items t
  | .follow _ item => ∃ l, item.token = .leaf l

variable {s : Setting} {build : QueryBuilder}

theorem Reduces.complete {l : Leaf} {p : Place} {step : Step} (h : Reduces s build l p step) : step.Complete := by
  have leaf : ∀ l', (Step.leaf l' p).Complete := fun l' => ⟨_, .leaf l' p⟩
  cases h with
  | hook _ _ _ _ he => exact spells_of_distributeNot he p
  | hierarchy _ _ he => exact spells_of_distributeNot he p
  | heldLines _ he => exact spells_of_distributeNot he p
  | inherited _ => exact ⟨_, rfl⟩
  | joined _ => exact ⟨_, rfl⟩
  | holds => trivial
  | noLines _ => trivial
  | linkedFound _ _ _ _ => trivial
  | linked _ _ _ _ => trivial
  | plain _ => trivial
  | translated _ _ => trivial
  | equal _ => exact leaf _
  | lines _ _ _ => exact leaf _
  | path _ _ => exact leaf _
  | owners _ _ _ _ => exact leaf _
  | relatives _ _ _ => exact leaf _
  | anyLink _ _ _ => exact leaf _
  | named _ _ => exact leaf _
  | attached _ _ => exact leaf _
  | widened _ _ => exact leaf _

end RecordFilter.Compile
