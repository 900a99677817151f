/-! The command line. -/

namespace RecordFilter.Command

/-- What is asked for. -/
inductive Action
  | compile
  | normalize
deriving DecidableEq, Repr

/-- What a command line means. -/
inductive Invocation
  /-- An action under the configuration in a file. -/
  | run (action : Action) (config : String)
  | version
  | help
  /-- The command line cannot be understood. -/
  | misuse
deriving DecidableEq, Repr

/-- The configuration file where none is named. -/
def defaultConfig : String := "./aerodomain.json"

/-- The action with a name. -/
def Action.ofName? (name : String) : Option Action :=
  if name = "compile" then some .compile
  else if name = "normalize" then some .normalize
  else none

/-- The value after `--config=`. -/
def attached? (arg : String) : Option String :=
  let opening := "--config=".toList
  if opening.isPrefixOf arg.toList then some (String.ofList (arg.toList.drop opening.length))
  else none

/-- Whether an argument asks by a letter after one hyphen. What follows the letter does not count,
    since the answer to the letter is the end of the run. -/
def asks (letter : Char) (arg : String) : Bool := ['-', letter].isPrefixOf arg.toList

/-- Whether an argument asks for help. -/
def asksHelp (arg : String) : Bool := asks 'h' arg || arg = "--help"

/-- Whether an argument asks for the version. -/
def asksVersion (arg : String) : Bool := asks 'V' arg || arg = "--version"

/-- Whether an argument may be the value of an option: it is not empty and does not look like an
    option itself. A single hyphen is a value. -/
def isValue (arg : String) : Bool := arg ≠ "" && (arg = "-" || arg.toList.head? ≠ some '-')

/-- Reads the options of an action; `config` is the configuration file named so far. Two hyphens end
    the options, and nothing may follow them. -/
def options (action : Action) (config : Option String) : List String → Invocation
  | [] => .run action (config.getD defaultConfig)
  | arg :: rest =>
    if asksHelp arg then .help
    else if arg = "--" then
      if rest.isEmpty then .run action (config.getD defaultConfig) else .misuse
    else if arg = "--config" then
      match rest with
      | value :: rest =>
        if isValue value && config.isNone then options action (some value) rest else .misuse
      | [] => .misuse
    else
      match attached? arg with
      | some value =>
        if value ≠ "" && config.isNone then options action (some value) rest else .misuse
      | none => .misuse

/-- Whether help can be asked for on some words: on nothing, on an action or on help itself. -/
def hasHelp : List String → Bool
  | [] => true
  | [topic] => topic = "help" || (Action.ofName? topic).isSome
  | _ => false

/-- Reads a command line. -/
def Invocation.ofArgs : List String → Invocation
  | [] => .misuse
  | arg :: rest =>
    if asksVersion arg then .version
    else if asksHelp arg then .help
    else if arg = "help" then if hasHelp rest then .help else .misuse
    else
      match Action.ofName? arg with
      | some action => options action none rest
      | none => .misuse

end RecordFilter.Command
