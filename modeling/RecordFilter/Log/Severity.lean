/-! How grave an event is. -/

namespace RecordFilter

/-- The severity of an event, from detail to failure. -/
inductive Severity
  | trace
  | info
  | warn
  | error
  | fatal
deriving DecidableEq, Repr

namespace Severity

/-- The name of a severity. -/
def name : Severity → String
  | trace => "TRACE"
  | info => "INFO"
  | warn => "WARN"
  | error => "ERROR"
  | fatal => "FATAL"

/-- The rank of a severity, from 0. -/
def level : Severity → Nat
  | trace => 0
  | info => 1
  | warn => 2
  | error => 3
  | fatal => 4

/-- A text with the letters of ASCII in upper case. -/
def upper (s : String) : String := String.ofList (s.toList.map Char.toUpper)

/-- The severity with a name in any case. -/
def ofName? (s : String) : Option Severity :=
  [trace, info, warn, error, fatal].find? (·.name = upper s)

end Severity

end RecordFilter
