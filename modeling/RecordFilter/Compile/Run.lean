import RecordFilter.Compile.Backend
import RecordFilter.Log.Entry

/-! Runs: computations that call the database and log events. What was called and logged is kept
also when a run fails. -/

namespace RecordFilter

/-- The calls and events of a run, in order. -/
structure Trace where
  calls : List Call := []
  entries : List Log.Entry := []

/-- Why a run has no result: an error, or the fuel ran out. -/
inductive Stop
  | error (e : Error)
  | unfinished

/-- A computation with a trace that may stop. -/
abbrev Run (α : Type) := ExceptT Stop (StateM Trace) α

namespace Run

/-- Runs a computation from an empty trace. -/
def start {α : Type} (r : Run α) : Except Stop α × Trace := (ExceptT.run r).run {}

/-- Stops with an error. -/
def fail {α : Type} (e : Error) : Run α := throw (.error e)

/-- Goes on with a value, or stops with an error. -/
def ofExcept {α : Type} : Except Error α → Run α
  | .ok x => pure x
  | .error e => fail e

/-- Logs an event. -/
def log (e : Log.Event) (fields : List (String × String)) : Run Unit :=
  modify fun t => { t with entries := t.entries ++ [Log.Entry.ofEvent e fields] }

/-- Records a call and gives the calls before it. -/
def record (c : Call) : Run (List Call) :=
  modifyGet fun t => (t.calls, { t with calls := t.calls ++ [c] })

/-- Searches the records of a domain. -/
def search (b : Backend) (m : Model) (d : Domain) (options : SearchOptions) : Run (List Int) := do
  let history ← record (.search m.name d options)
  ofExcept (b.search history m d options)

/-- Searches records by name. -/
def nameSearch (b : Backend) (m : Model) (name : Json) (op : Operator) (options : SearchOptions) :
    Run (List Int) := do
  let history ← record (b.nameCall m name op options)
  ofExcept (b.findByName history m name op options)

/-- Reads a reference on some records. -/
def references (b : Backend) (m : Model) (ids : List Int) (field : String) : Run (List Int) := do
  let history ← record (.references m.name ids field)
  ofExcept (b.references history m ids field)

/-- Reads the parent paths of some records. -/
def parentPaths (b : Backend) (m : Model) (ids : List Int) : Run (List (Int × String)) := do
  let history ← record (.parentPaths m.name ids)
  ofExcept (b.parentPaths history m ids)

/-- Asks a search hook for the domain of a leaf. -/
def callHook (name : String) (hook : Hook) (m : Model) (op : Operator) (operand : Operand) :
    Run Domain := do
  let _ ← record (.hook name m.name op operand)
  ofExcept (hook m op operand)

end Run

end RecordFilter
