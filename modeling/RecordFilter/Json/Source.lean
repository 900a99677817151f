import RecordFilter.Json.Numeral

/-! JSON texts. A text is first read as a `Source`, which keeps repeated keys and says where a
number or string is well formed but stands for no value; a `Source` without such places is a
`Json` value. -/

namespace RecordFilter

/-- A JSON text as written. A string with half of a surrogate pair and a number too large for
    floats are `unusable`; a key that is such a string is `none`. -/
inductive Json.Source
  | null
  | bool (value : Bool)
  | int (value : Int)
  | float (value : Float)
  | str (value : String)
  | unusable
  | arr (items : List Json.Source)
  | obj (members : List (Option String × Json.Source))

namespace Json

/-- What is wrong with a JSON text. -/
inductive Fault
  | unfinished
  | unexpected (found : Char)
  | badNumber
  | badString
  | trailing
  | unusable
  | tooDeep
deriving DecidableEq, Repr

/-- What is wrong, in words. -/
def Fault.message : Fault → String
  | .unfinished => "the text ends too early"
  | .unexpected c => "unexpected character " ++ String.singleton c
  | .badNumber => "invalid number"
  | .badString => "invalid string"
  | .trailing => "characters after the value"
  | .unusable => "a number or string without a value"
  | .tooDeep => "nested too deeply"

namespace Source

/-! ### Strings -/

/-- A piece of a string: a character as it stands, or a 16-bit unit from an escape. -/
inductive Piece
  | char (c : Char)
  | unit (value : Nat)

/-- The value of a hexadecimal digit. -/
def hexValue? (c : Char) : Option Nat :=
  if c.isDigit then some (c.toNat - 48)
  else if 'a' ≤ c ∧ c ≤ 'f' then some (c.toNat - 87)
  else if 'A' ≤ c ∧ c ≤ 'F' then some (c.toNat - 55)
  else none

/-- The unit of four hexadecimal digits. -/
def unit? (a b c d : Char) : Option Nat :=
  match hexValue? a, hexValue? b, hexValue? c, hexValue? d with
  | some a, some b, some c, some d => some (((a * 16 + b) * 16 + c) * 16 + d)
  | _, _, _, _ => none

/-- The character that a short escape stands for. -/
def shortEscape? (c : Char) : Option Char :=
  if c = '"' then some '"'
  else if c = '\\' then some '\\'
  else if c = '/' then some '/'
  else if c = 'b' then some (Char.ofNat 8)
  else if c = 'f' then some (Char.ofNat 12)
  else if c = 'n' then some '\n'
  else if c = 'r' then some '\r'
  else if c = 't' then some '\t'
  else none

/-- Reads the pieces of a string up to its closing quote, and the rest of the text. -/
def readPieces? : List Char → Option (List Piece × List Char)
  | [] => none
  | '"' :: rest => some ([], rest)
  | '\\' :: 'u' :: a :: b :: c :: d :: rest =>
    match unit? a b c d, readPieces? rest with
    | some u, some (ps, after) => some (.unit u :: ps, after)
    | _, _ => none
  | '\\' :: c :: rest =>
    match shortEscape? c, readPieces? rest with
    | some c, some (ps, after) => some (.char c :: ps, after)
    | _, _ => none
  | c :: rest =>
    if c = '\\' ∨ c.toNat < 32 then none
    else
      match readPieces? rest with
      | some (ps, after) => some (.char c :: ps, after)
      | none => none

/-- The characters of some pieces; a high surrogate must stand right before a low one. -/
def join? : List Piece → Option (List Char)
  | [] => some []
  | .char c :: rest => (join? rest).map (c :: ·)
  | .unit high :: .unit low :: rest =>
    if 0xD800 ≤ high ∧ high < 0xDC00 then
      if 0xDC00 ≤ low ∧ low < 0xE000 then
        (join? rest).map (Char.ofNat (0x10000 + (high - 0xD800) * 0x400 + (low - 0xDC00)) :: ·)
      else none
    else if 0xDC00 ≤ high ∧ high < 0xE000 then none
    else (join? (.unit low :: rest)).map (Char.ofNat high :: ·)
  | .unit u :: rest =>
    if 0xD800 ≤ u ∧ u < 0xE000 then none else (join? rest).map (Char.ofNat u :: ·)

/-- Reads a string after its opening quote; the inner `none` is a string without a value. -/
def readString? (text : List Char) : Option (Option String × List Char) :=
  match readPieces? text with
  | none => none
  | some (ps, rest) => some ((join? ps).map String.ofList, rest)

/-! ### Values -/

/-- The blanks between the parts of a text. -/
def isBlank (c : Char) : Bool := c = ' ' || c = '\n' || c = '\t' || c = '\r'

/-- The text from its first character that is no blank. -/
def skipBlanks : List Char → List Char
  | [] => []
  | c :: rest => if isBlank c then skipBlanks rest else c :: rest

/-- Drops `word` from the front of a text. -/
def readWord (word : List Char) (text : List Char) : Except Fault (List Char) :=
  match word, text with
  | [], rest => .ok rest
  | _ :: _, [] => .error .unfinished
  | w :: word, c :: rest => if w = c then readWord word rest else .error (.unexpected c)

/-- The source of a number, which is unusable if it is too large. -/
def ofNumeral (n : Numeral) : Source :=
  match n.number? with
  | some (.int i) => .int i
  | some (.float x) => .float x
  | _ => .unusable

/-- Reads a number in front of a text. -/
def readNumber (text : List Char) : Except Fault (Source × List Char) :=
  match Numeral.read? text with
  | some (n, rest) => .ok (ofNumeral n, rest)
  | none => .error .badNumber

mutual

/-- Reads one value in front of a text. -/
def readValue : Nat → List Char → Except Fault (Source × List Char)
  | 0, _ => .error .unfinished
  | fuel + 1, text =>
    match skipBlanks text with
    | [] => .error .unfinished
    | 'n' :: rest => do return (.null, ← readWord ['u', 'l', 'l'] rest)
    | 't' :: rest => do return (.bool true, ← readWord ['r', 'u', 'e'] rest)
    | 'f' :: rest => do return (.bool false, ← readWord ['a', 'l', 's', 'e'] rest)
    | '"' :: rest =>
      match readString? rest with
      | some (some s, rest) => .ok (.str s, rest)
      | some (none, rest) => .ok (.unusable, rest)
      | none => .error .badString
    | '[' :: rest =>
      match skipBlanks rest with
      | ']' :: rest => .ok (.arr [], rest)
      | rest => do
        let (items, rest) ← readItems fuel rest
        return (.arr items, rest)
    | '\x7b' :: rest =>
      match skipBlanks rest with
      | '\x7d' :: rest => .ok (.obj [], rest)
      | rest => do
        let (members, rest) ← readMembers fuel rest
        return (.obj members, rest)
    | c :: rest => if c = '-' ∨ c.isDigit then readNumber (c :: rest) else .error (.unexpected c)

/-- Reads the items of a list, of which there is at least one, and the closing bracket. -/
def readItems : Nat → List Char → Except Fault (List Source × List Char)
  | 0, _ => .error .unfinished
  | fuel + 1, text => do
    let (item, rest) ← readValue fuel text
    match skipBlanks rest with
    | ',' :: rest => do
      let (items, rest) ← readItems fuel rest
      return (item :: items, rest)
    | ']' :: rest => .ok ([item], rest)
    | c :: _ => .error (.unexpected c)
    | [] => .error .unfinished

/-- Reads the members of an object, of which there is at least one, and the closing brace. -/
def readMembers : Nat → List Char → Except Fault (List (Option String × Source) × List Char)
  | 0, _ => .error .unfinished
  | fuel + 1, text =>
    match skipBlanks text with
    | '"' :: rest =>
      match readString? rest with
      | none => .error .badString
      | some (key, rest) =>
        match skipBlanks rest with
        | ':' :: rest => do
          let (value, rest) ← readValue fuel rest
          match skipBlanks rest with
          | ',' :: rest => do
            let (members, rest) ← readMembers fuel rest
            return ((key, value) :: members, rest)
          | '\x7d' :: rest => .ok ([(key, value)], rest)
          | c :: _ => .error (.unexpected c)
          | [] => .error .unfinished
        | c :: _ => .error (.unexpected c)
        | [] => .error .unfinished
    | c :: _ => .error (.unexpected c)
    | [] => .error .unfinished

end

/-- Reads a whole text. Every step of the reader but the first takes a character, so twice the
    length of the text is fuel enough. -/
def ofText (text : String) : Except Fault Source :=
  let chars := text.toList
  match readValue (2 * chars.length + 1) chars with
  | .error e => .error e
  | .ok (value, rest) =>
    match skipBlanks rest with
    | [] => .ok value
    | _ :: _ => .error .trailing

/-! ### From source to value -/

/-- The deepest nesting of a value. -/
def maxDepth : Nat := 127

mutual

/-- The value of a source, in which `room` more levels may be nested; the last of a repeated key
    counts. -/
def toJson : Nat → Source → Except Fault Json
  | _, .null => .ok .null
  | _, .bool b => .ok (.bool b)
  | _, .int n => .ok (.int n)
  | _, .float x => .ok (.float x)
  | _, .str s => .ok (.str s)
  | _, .unusable => .error .unusable
  | 0, .arr _ => .error .tooDeep
  | 0, .obj _ => .error .tooDeep
  | room + 1, .arr items =>
    match toJsonItems room items with
    | .ok items => .ok (.arr items)
    | .error e => .error e
  | room + 1, .obj members =>
    match toJsonMembers room members with
    | .ok members => .ok (Json.ofMembers members)
    | .error e => .error e

/-- The values of the items of a list. -/
def toJsonItems : Nat → List Source → Except Fault (List Json)
  | _, [] => .ok []
  | room, item :: rest =>
    match toJson room item, toJsonItems room rest with
    | .ok item, .ok rest => .ok (item :: rest)
    | .error e, _ => .error e
    | _, .error e => .error e

/-- The values of the members of an object, in the order of the source. -/
def toJsonMembers : Nat → List (Option String × Source) → Except Fault (List (String × Json))
  | _, [] => .ok []
  | room, (key, value) :: rest =>
    match key, toJson room value, toJsonMembers room rest with
    | some key, .ok value, .ok rest => .ok ((key, value) :: rest)
    | none, _, _ => .error .unusable
    | _, .error e, _ => .error e
    | _, _, .error e => .error e

end

mutual

/-- A value as a source. -/
def ofJson : Json → Source
  | .null => .null
  | .bool b => .bool b
  | .int n => .int n
  | .float x => .float x
  | .str s => .str s
  | .arr items => .arr (ofJsonItems items)
  | .obj members => .obj (ofJsonMembers members)

/-- Items as sources. -/
def ofJsonItems : List Json → List Source
  | [] => []
  | item :: rest => ofJson item :: ofJsonItems rest

/-- Members as sources. -/
def ofJsonMembers : List (String × Json) → List (Option String × Source)
  | [] => []
  | (key, value) :: rest => (some key, ofJson value) :: ofJsonMembers rest

end

end Source

/-- Reads a value from a text. -/
def ofText (text : String) : Except Fault Json :=
  match Source.ofText text with
  | .ok source => source.toJson Source.maxDepth
  | .error e => .error e

end Json

end RecordFilter
