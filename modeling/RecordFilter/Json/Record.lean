import RecordFilter.Json.Source

/-! Records in JSON texts: objects with fixed keys, each with a type and maybe a default. -/

namespace RecordFilter.Json

/-- Why a value is not the record that was expected. -/
inductive Mismatch
  | notRecord
  | tooLong
  | repeated (key : String)
  | badKey
  | missing (key : String)
  | wrongType (key expected : String)
  | notText (fault : Fault)
deriving DecidableEq, Repr

/-- A mismatch in words. -/
def Mismatch.message : Mismatch → String
  | notRecord => "expected an object"
  | tooLong => "too many items"
  | repeated key => "duplicate field " ++ quoted key
  | badKey => "unusable key"
  | missing key => "missing field " ++ quoted key
  | wrongType key expected => "field " ++ quoted key ++ " must be " ++ expected
  | notText fault => fault.message
where
  /-- A key between backquotes. -/
  quoted (key : String) : String := "\x60" ++ key ++ "\x60"

/-- The members of a record that are known. -/
abbrev Members := List (String × Source)

namespace Members

/-- The member under a key. -/
def find? (key : String) (ms : Members) : Option Source := List.lookup key ms

/-- Collects the members of an object with known keys; a known key must not come twice. -/
def ofObject (known : List String) : List (Option String × Source) → Except Mismatch Members
  | [] => .ok []
  | (none, _) :: _ => .error .badKey
  | (some key, value) :: rest =>
    match ofObject known rest with
    | .error e => .error e
    | .ok ms =>
      if !known.contains key then .ok ms
      else if (find? key ms).isSome then .error (.repeated key)
      else .ok ((key, value) :: ms)

/-- The members of a record: an object, or a list of values in the order of the known keys. -/
def ofSource (known : List String) : Source → Except Mismatch Members
  | .obj members => ofObject known members
  | .arr items => if items.length ≤ known.length then .ok (known.zip items) else .error .tooLong
  | _ => .error .notRecord

/-- Reads the member under a key with `read`; a missing one gives the default, if there is one. -/
def get {α : Type} (ms : Members) (key expected : String) (read : Source → Option α)
    (missing : Option α) : Except Mismatch α :=
  match find? key ms with
  | none =>
    match missing with
    | some x => .ok x
    | none => .error (.missing key)
  | some s =>
    match read s with
    | some x => .ok x
    | none => .error (.wrongType key expected)

end Members

/-- The text of a string. -/
def Source.str? : Source → Option String
  | .str s => some s
  | _ => none

/-- A truth value. -/
def Source.bool? : Source → Option Bool
  | .bool b => some b
  | _ => none

/-- An integer without a sign. -/
def Source.natural? : Source → Option Nat
  | .int n => if 0 ≤ n then some n.toNat else none
  | _ => none

/-- Null, or a value that `read` takes. -/
def Source.optional? {α : Type} (read : Source → Option α) : Source → Option (Option α)
  | .null => some none
  | s => (read s).map some

/-- The entries of an object whose keys are free, each read with `read`; the last of a repeated key
    counts. -/
def Source.map {α : Type} (read : Source → Except Mismatch α) : Source → Except Mismatch (Keyed α)
  | .obj members => entries .empty members
  | _ => .error .notRecord
where
  /-- Reads the entries in order. -/
  entries (found : Keyed α) : List (Option String × Source) → Except Mismatch (Keyed α)
    | [] => .ok found
    | (none, _) :: _ => .error .badKey
    | (some key, s) :: rest =>
      match read s with
      | .error e => .error e
      | .ok x => entries (found.insert key x) rest

/-- Reads a record from a text. -/
def decodeText {α : Type} (decode : Source → Except Mismatch α) (text : String) :
    Except Mismatch α :=
  match Source.ofText text with
  | .error fault => .error (.notText fault)
  | .ok s => decode s

end RecordFilter.Json
