import RecordFilter.Log.Entry

/-! Where log lines go: to the innermost capture, or else to the output if they are grave enough. -/

namespace RecordFilter.Log

/-- The state of the log. Captures are listed from the innermost one. -/
structure Logger where
  minimum : Severity := .warn
  output : List String := []
  captures : List (List String) := []

namespace Logger

/-- Logs an entry. A capture takes lines of every severity. -/
def log (l : Logger) (e : Entry) : Logger :=
  match l.captures with
  | lines :: outer => { l with captures := (lines ++ [e.line]) :: outer }
  | [] =>
    if e.severity.level < l.minimum.level then l else { l with output := l.output ++ [e.line] }

/-- Sets the least severity of the output. -/
def setMinimum (l : Logger) (s : Severity) : Logger := { l with minimum := s }

/-- Starts a capture. -/
def beginCapture (l : Logger) : Logger := { l with captures := [] :: l.captures }

/-- Ends the innermost capture and gives its lines. -/
def endCapture (l : Logger) : Logger × List String :=
  match l.captures with
  | lines :: outer => ({ l with captures := outer }, lines)
  | [] => (l, [])

end Logger

end RecordFilter.Log
