import RecordFilter.Error
import RecordFilter.Json.Record
import RecordFilter.Json.Text
import RecordFilter.Log.Severity
import RecordFilter.Text.Word

/-! The configuration of the compiler. -/

namespace RecordFilter

/-- The settings of a configuration file. -/
structure Config where
  /-- The directory with the model files. -/
  schemaDir : Option String := none
  /-- The language of translated values. -/
  lang : String := "en_US"
  /-- Whether pattern comparisons ignore accents. -/
  unaccent : Bool := false
  /-- Whether records out of use are hidden. -/
  activeTest : Bool := true
  /-- How many levels of a hierarchy are walked at most. -/
  maxIterations : Nat := 1000
  attachmentTable : String := "ir_attachment"
  /-- The least severity that is logged. -/
  logLevel : String := "WARN"
deriving DecidableEq, Repr

namespace Config

open Json

/-- The keys of a configuration, in the order of a list. -/
def keys : List String :=
  ["schema_dir", "lang", "unaccent", "active_test", "hierarchy_max_iterations", "attachment_table",
    "log_level"]

/-- Reads a configuration. Every key has a default. -/
def ofSource (s : Source) : Except Mismatch Config := do
  let ms ← Members.ofSource keys s
  let schemaDir ← ms.get "schema_dir" "a string or null" (Source.optional? Source.str?) (some none)
  let lang ← ms.get "lang" "a string" Source.str? (some "en_US")
  let unaccent ← ms.get "unaccent" "a boolean" Source.bool? (some false)
  let activeTest ← ms.get "active_test" "a boolean" Source.bool? (some true)
  let maxIterations ← ms.get "hierarchy_max_iterations" "a natural" Source.natural? (some 1000)
  let attachmentTable ← ms.get "attachment_table" "a string" Source.str? (some "ir_attachment")
  let logLevel ← ms.get "log_level" "a string" Source.str? (some "WARN")
  return { schemaDir, lang, unaccent, activeTest, maxIterations, attachmentTable, logLevel }

/-- Reads a configuration from a value. -/
def ofJson (j : Json) : Except Mismatch Config := ofSource (Source.ofJson j)

/-- Writes a configuration. -/
def toJson (c : Config) : Json :=
  .ofMembers
    [("schema_dir", match c.schemaDir with | some dir => .str dir | none => .null),
      ("lang", .str c.lang), ("unaccent", .bool c.unaccent), ("active_test", .bool c.activeTest),
      ("hierarchy_max_iterations", .int c.maxIterations),
      ("attachment_table", .str c.attachmentTable),
      ("log_level", .str c.logLevel)]

/-- The least severity that is logged. -/
def severity (c : Config) : Except Error Severity :=
  match Severity.ofName? c.logLevel with
  | some s => .ok s
  | none => .error (.config (.unknownSeverity (Severity.upper c.logLevel)))

/-- Checks the values of a configuration. -/
def validate (c : Config) : Except Error Unit :=
  if !Text.isLanguage c.lang then .error (.config (.badLang c.lang))
  else if c.maxIterations = 0 then .error (.config .noIterations)
  else if !Text.isIdentifier c.attachmentTable then
    .error (.config (.badAttachmentTable c.attachmentTable))
  else
    match c.severity with
    | .error e => .error e
    | .ok _ => .ok ()

end Config

end RecordFilter
