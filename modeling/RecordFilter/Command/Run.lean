import RecordFilter.Command.Args
import RecordFilter.Command.Request
import RecordFilter.Compiler
import RecordFilter.Config.File
import RecordFilter.Log.Logger
import RecordFilter.Schema.Directory
import RecordFilter.Text.Blank

/-! The commands: each reads the configuration and one request, and writes one response. -/

namespace RecordFilter.Command

/-- What a command leaves behind: its exit code and what it wrote. -/
structure Outcome where
  exit : Nat
  output : String
  errors : String
deriving DecidableEq, Repr

/-- The name and version of the program. -/
def versionText : String := "aerodomain 0.1.0\n"

/-- How the program is used. -/
def helpText : String := "Usage: aerodomain <compile|normalize> [--config <CONFIG>]\n"

/-- Fuel for one compilation. -/
def fuel : Nat := 10000000

/-! ### Requests -/

/-- The request in a text. -/
def parseRequest (text : String) : Except Failure (List (String × Json)) :=
  if Text.isBlankText text then .error .emptyInput
  else
    match Json.ofText text with
    | .error fault => .error (.inputNotJson fault)
    | .ok (.obj members) => .ok members
    | .ok _ => .error .notObject

/-- The context that a request asks for. -/
def requestContext (config : Config) (request : CompileRequest) : Except Failure Context :=
  let ctx := Context.ofConfig config
  let ctx := { ctx with activeTest := request.activeTest.getD ctx.activeTest }
  match request.lang with
  | none => .ok ctx
  | some lang =>
    if Text.isLanguage lang then .ok { ctx with lang := lang } else .error (.badLang lang)

/-- A join as JSON. -/
def joinJson (j : Sql.Join) : Json :=
  .ofMembers
    [("alias", .str j.tableAlias), ("source_alias", .str j.sourceAlias),
      ("source_column", .str j.sourceColumn), ("target_table", .str j.targetTable),
      ("target_column", .str j.targetColumn)]

/-- Answers a request to compile a domain without a database, and gives the logged events. -/
def compileResponse (config : Config) (registry : Registry) (members : List (String × Json)) :
    Except Failure Json × List Log.Entry :=
  match CompileRequest.ofMembers members with
  | .error mismatch => (.error (.badCompileRequest mismatch), [])
  | .ok request =>
    match Domain.ofJson request.domain with
    | .error e => (.error (.ofError e), [])
    | .ok d =>
      match requestContext config request with
      | .error failure => (.error failure, [])
      | .ok ctx =>
        let compiler : Compiler := { registry := registry, context := ctx }
        match Run.start (compiler.explain fuel request.model d) with
        | (.error .unfinished, trace) => (.error .unfinished, trace.entries)
        | (.error (.error e), trace) => (.error (.ofError e), trace.entries)
        | (.ok x, trace) =>
          let data : Json := .ofMembers
            [("sql", .str x.select.sql), ("params", .arr (x.select.params.map Sql.Param.toJson)),
              ("joins", .arr (x.joins.map joinJson))]
          (.ok data, trace.entries)

/-- Answers a request to normalize a domain. -/
def normalizeResponse (members : List (String × Json)) : Except Failure Json :=
  match anyMember members "domain" with
  | .error mismatch => .error (.badNormalizeRequest mismatch)
  | .ok source =>
    let answer : Except Error Json := do
      let d ← Domain.ofJson source
      let normalized ← d.normalize
      let distributed ← d.distributeNot
      let isFalse ← d.isFalse
      return .ofMembers
        [("normalized", Domain.toJson normalized), ("distributed", Domain.toJson distributed),
          ("is_false", .bool isFalse)]
    answer.mapError .ofError

/-! ### Running -/

/-- The line of a response. -/
def responseLine (data : Json) : String :=
  (Json.ofMembers [("status", .str "ok"), ("data", data)]).text ++ "\n"

/-- The line of a failure. -/
def failureLine (failure : Failure) : String :=
  (Json.ofMembers
    [("status", .str "error"), ("code", .str failure.code), ("message", .str failure.message)]).text
    ++ "\n"

/-- Logs the events of a command in order. -/
def logAll (l : Log.Logger) (entries : List Log.Entry) : Log.Logger :=
  entries.foldl Log.Logger.log l

/-- What a command leaves behind after its events. -/
def outcome (l : Log.Logger) : Except Failure Json → Outcome
  | .ok data => ⟨0, responseLine data, String.join l.output⟩
  | .error failure =>
    let l := l.log (.ofEvent .requestFailed [("code", failure.code), ("message", failure.message)])
    let notice := failure.code ++ ": " ++ failure.message ++ "\n"
    ⟨1, failureLine failure, String.join l.output ++ notice⟩

variable {m : Type → Type} [Monad m]

/-- Reads a configuration and the least severity that it logs. -/
def loadConfig (a : Files.Access m) (path : String) : m (Except Failure (Config × Severity)) := do
  match ← Config.load a path with
  | .error e => return .error (.ofError e)
  | .ok config =>
    match config.severity with
    | .error e => return .error (.ofError e)
    | .ok severity => return .ok (config, severity)

/-- Loads the schema that a configuration names. -/
def loadRegistry (a : Files.Access m) (config : Config) : m (Except Failure Registry) := do
  match config.schemaDir with
  | none => return .error .noSchemaDir
  | some dir =>
    match ← Schema.load a dir with
    | (.ok (), registry) => return .ok registry
    | (.error e, _) => return .error (.ofError e)

/-- Reads the request on the input. -/
def readRequest (a : Files.Access m) : m (Except Failure (List (String × Json))) := do
  match ← a.readInput with
  | .error reason => return .error (.unreadableInput reason)
  | .ok text => return parseRequest text

/-- Does an action under a configuration, and gives the events. -/
def perform (a : Files.Access m) (action : Action) (config : Config) :
    m (Except Failure Json × List Log.Entry) := do
  match action with
  | .normalize =>
    match ← readRequest a with
    | .error failure => return (.error failure, [])
    | .ok members => return (normalizeResponse members, [])
  | .compile =>
    match ← loadRegistry a config with
    | .error failure => return (.error failure, [])
    | .ok registry =>
      match ← readRequest a with
      | .error failure => return (.error failure, [])
      | .ok members => return compileResponse config registry members

/-- Runs the program on a command line. -/
def run (a : Files.Access m) (args : List String) : m Outcome := do
  match Invocation.ofArgs args with
  | .misuse => return ⟨2, "", helpText⟩
  | .version => return ⟨0, versionText, ""⟩
  | .help => return ⟨0, helpText, ""⟩
  | .run action path =>
    match ← loadConfig a path with
    | .error failure => return outcome {} (.error failure)
    | .ok (config, severity) =>
      let (result, entries) ← perform a action config
      return outcome (logAll { minimum := severity } entries) result

end RecordFilter.Command
