import RecordFilter.Command.Run

/-! The program. -/

open RecordFilter

/-- The text of some bytes, or the reason why they are none. -/
def decodeUtf8 (bytes : ByteArray) : Except String String :=
  match String.fromUTF8? bytes with
  | some text => .ok text
  | none => .error Files.notUtf8

/-- Access to the files and the input of the process. -/
def processAccess : Files.Access IO where
  readText path := do
    try return decodeUtf8 (← IO.FS.readBinFile path)
    catch e => return .error (toString e)
  isDirectory path := do
    try (← IO.FS.realPath path).isDir
    catch _ => return false
  names path := do
    try return .ok ((← (← IO.FS.realPath path).readDir).toList.map fun e => .ok e.fileName)
    catch e => return .error (toString e)
  readInput := do return decodeUtf8 (← (← IO.getStdin).readBinToEnd)

def main (args : List String) : IO UInt32 := do
  let outcome ← Command.run processAccess args
  (← IO.getStdout).putStr outcome.output
  (← IO.getStderr).putStr outcome.errors
  return outcome.exit.toUInt32
