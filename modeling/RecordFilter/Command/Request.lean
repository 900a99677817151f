import RecordFilter.Domain.Format
import RecordFilter.Json.Record

/-! Requests on the input, and why a command fails. -/

namespace RecordFilter.Command

open Json

/-- Why a command fails. -/
inductive Failure
  | config (fault : ConfigFault)
  | noSchemaDir
  | unreadableInput (reason : String)
  | emptyInput
  | inputNotJson (fault : Fault)
  | notObject
  | badCompileRequest (mismatch : Mismatch)
  | badNormalizeRequest (mismatch : Mismatch)
  | badLang (lang : String)
  | domain (e : Error)
  /-- The compilation took more fuel than there is. -/
  | unfinished

namespace Failure

/-- An error of the library as the failure of a command. -/
def ofError : Error → Failure
  | .config fault => .config fault
  | e => .domain e

/-- The code of a failure. -/
def code : Failure → String
  | config _ | noSchemaDir => "AERO_CLI_CONFIG_ERROR"
  | unreadableInput _ | emptyInput | inputNotJson _ => "AERO_CLI_IO_ERROR"
  | notObject | badCompileRequest _ | badNormalizeRequest _ | badLang _ =>
    "AERO_CLI_INVALID_REQUEST"
  | domain e => e.code
  | unfinished => "AERO_CLI_UNFINISHED"

/-- A failure in words. -/
def message : Failure → String
  | config fault => fault.message
  | noSchemaDir => "schema_dir is not set"
  | unreadableInput reason => reason
  | emptyInput => "Empty input"
  | inputNotJson fault => "JSON error: " ++ fault.message
  | notObject => "request must be a JSON object"
  | badCompileRequest mismatch => "Invalid compile request: " ++ mismatch.message
  | badNormalizeRequest mismatch => "Invalid normalize request: " ++ mismatch.message
  | badLang lang => "Invalid lang: '" ++ lang ++ "'"
  | domain e => e.message
  | unfinished => "the compilation did not finish"

end Failure

/-- A request to compile a domain. -/
structure CompileRequest where
  model : String
  domain : Json
  lang : Option String
  activeTest : Option Bool

/-- The text of a member. -/
def textMember (members : List (String × Json)) (key : String) : Except Mismatch String :=
  match Keyed.lookup key members with
  | some (.str s) => .ok s
  | some _ => .error (.wrongType key "a string")
  | none => .error (.missing key)

/-- The text of a member that may be missing or null. -/
def textMember? (members : List (String × Json)) (key : String) : Except Mismatch (Option String) :=
  match Keyed.lookup key members with
  | some (.str s) => .ok (some s)
  | some .null | none => .ok none
  | some _ => .error (.wrongType key "a string or null")

/-- The truth value of a member that may be missing or null. -/
def boolMember? (members : List (String × Json)) (key : String) : Except Mismatch (Option Bool) :=
  match Keyed.lookup key members with
  | some (.bool b) => .ok (some b)
  | some .null | none => .ok none
  | some _ => .error (.wrongType key "a boolean or null")

/-- A member of any kind. -/
def anyMember (members : List (String × Json)) (key : String) : Except Mismatch Json :=
  match Keyed.lookup key members with
  | some j => .ok j
  | none => .error (.missing key)

/-- Reads a request to compile a domain. -/
def CompileRequest.ofMembers (members : List (String × Json)) : Except Mismatch CompileRequest := do
  return {
    model := ← textMember members "model"
    domain := ← anyMember members "domain"
    lang := ← textMember? members "lang"
    activeTest := ← boolMember? members "active_test" }

end RecordFilter.Command
