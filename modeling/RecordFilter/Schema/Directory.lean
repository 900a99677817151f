import RecordFilter.Files.Access
import RecordFilter.Files.Path
import RecordFilter.Schema.Format
import RecordFilter.Schema.Registry

/-! Schemas from directories with one model a file. -/

namespace RecordFilter.Schema

open Json

/-- A file with its text, or with the reason why it cannot be read. -/
structure ModelFile where
  path : String
  content : Except String String

/-- Registers the model of a file: how that ends, and the registry after it. -/
def loadFile (r : Registry) (f : ModelFile) : Except Error Unit × Registry :=
  match f.content with
  | .error reason => (.error (.schema (.unreadable f.path reason)), r)
  | .ok text =>
    match decodeText Model.ofSource text with
    | .error mismatch => (.error (.schema (.notJson f.path mismatch.message)), r)
    | .ok m =>
      match r.attempt m with
      | (.ok (), r) => (.ok (), r)
      | (.error (.schema fault), r) => (.error (.schema (.file f.path fault)), r)
      | (.error e, r) => (.error e, r)

/-- Registers the models of some files up to the first that fails. -/
def loadFiles (r : Registry) : List ModelFile → Except Error Unit × Registry
  | [] => (.ok (), r)
  | f :: rest =>
    match loadFile r f with
    | (.ok (), r) => loadFiles r rest
    | (.error e, r) => (.error e, r)

/-- The files in the order of their paths. -/
def inOrder (files : List ModelFile) : List ModelFile := files.mergeSort fun a b => a.path ≤ b.path

/-- Registers the models of some files, given in any order, and checks what refers to other models.
    The registry comes back also when that fails. -/
def loadAll (files : List ModelFile) : Except Error Unit × Registry :=
  match loadFiles {} (inOrder files) with
  | (.error e, r) => (.error e, r)
  | (.ok (), r) => (r.validate, r)

/-- Reads some files. -/
def readAll {m : Type → Type} [Monad m] (a : Files.Access m) : List String → m (List ModelFile)
  | [] => return []
  | path :: rest => do
    let content ← a.readText path
    return ⟨path, content⟩ :: (← readAll a rest)

/-- The names of the model files among the entries of a directory, if all the entries can be read. -/
def modelNames : List (Except String String) → Except String (List String)
  | [] => .ok []
  | .error reason :: _ => .error reason
  | .ok name :: rest =>
    match modelNames rest with
    | .error reason => .error reason
    | .ok names => .ok (if Files.isJsonFile name then name :: names else names)

/-- Loads the schema of a directory. -/
def load {m : Type → Type} [Monad m] (a : Files.Access m) (directory : String) :
    m (Except Error Unit × Registry) := do
  if ← a.isDirectory directory then
    match ← a.names directory with
    | .error reason => return (.error (.schema (.unlisted directory reason)), {})
    | .ok entries =>
      match modelNames entries with
      | .error reason => return (.error (.schema (.badEntry reason)), {})
      | .ok names => return loadAll (← readAll a (names.map (Files.join directory)))
  else
    return (.error (.schema (.noDirectory directory)), {})

end RecordFilter.Schema
