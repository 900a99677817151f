import RecordFilter.Compile.Leaf
import RecordFilter.Compile.Nested
import RecordFilter.Domain.Negation

/-! What is left to do in a compilation. -/

namespace RecordFilter.Compile

/-- A token and where it is read. -/
structure Work where
  token : Token
  place : Place

/-- The tokens of a domain, all read at one place. -/
def Work.ofDomain (p : Place) (d : Domain) : List Work := d.map fun token => ⟨token, p⟩

/-- What becomes of a leaf. -/
inductive Step
  /-- Its condition. -/
  | emit (c : Sql.Cond)
  /-- Tokens in its stead, in the order of a domain. -/
  | requeue (items : List Work)
  /-- A token in its stead on a table that has to be joined. -/
  | follow (join : Sql.Join) (item : Work)

/-- A leaf in the stead of a leaf. -/
def Step.leaf (leaf : Leaf) (p : Place) : Step := .requeue [⟨.leaf leaf, p⟩]

/-- A domain in the stead of a leaf, its negations moved to the leaves. -/
def Step.domain (d : Domain) (p : Place) : Run Step := do
  let d ← Run.ofExcept (Domain.distributeNot d)
  return .requeue (Work.ofDomain p d)

/-- A leaf on the table of a model that is joined through a reference of the present table. -/
def Step.followTo (leaf : Leaf) (p : Place) (link : String) (target : Model) : Step :=
  let join := Sql.Query.joinThrough p.tableAlias link target.table "id" link
  .follow join ⟨.leaf leaf, ⟨target, join.tableAlias⟩⟩

end RecordFilter.Compile
