import RecordFilter.Config
import RecordFilter.Files.Access
import RecordFilter.Files.Path

/-! Configuration files. -/

namespace RecordFilter.Config

/-- A relative schema directory is seen from the directory of the configuration file. -/
def locate (path : String) (c : Config) : Config :=
  match c.schemaDir, Files.parent? path with
  | some dir, some base =>
    if Files.isAbsolute dir then c else { c with schemaDir := some (Files.join base dir) }
  | _, _ => c

/-- The configuration in the text of a file. -/
def ofFileText (path text : String) : Except Error Config :=
  match Json.decodeText ofSource text with
  | .error mismatch => .error (.config (.notJson mismatch.message))
  | .ok c =>
    let c := c.locate path
    match c.validate with
    | .error e => .error e
    | .ok () => .ok c

/-- Reads a configuration file. -/
def load {m : Type → Type} [Monad m] (a : Files.Access m) (path : String) :
    m (Except Error Config) := do
  match ← a.readText path with
  | .error reason => return .error (.config (.unreadable reason))
  | .ok text => return ofFileText path text

end RecordFilter.Config
