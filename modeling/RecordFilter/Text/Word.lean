/-! The forms of words: SQL identifiers, dotted model names and language codes. -/

namespace RecordFilter.Text

/-- A letter from `a` to `z`. -/
def isLower (c : Char) : Bool := 'a' ≤ c && c ≤ 'z'

/-- A letter from `A` to `Z`. -/
def isUpper (c : Char) : Bool := 'A' ≤ c && c ≤ 'Z'

/-- A digit from `0` to `9`. -/
def isDigit (c : Char) : Bool := '0' ≤ c && c ≤ '9'

/-- A letter of either case. -/
def isLetter (c : Char) : Bool := isLower c || isUpper c

/-! ### Identifiers -/

/-- The first character of an identifier. -/
def startsIdentifier (c : Char) : Bool := isLetter c || c = '_'

/-- The later characters of an identifier. -/
def continuesIdentifier (c : Char) : Bool := startsIdentifier c || isDigit c

/-- A word that needs no quotes in SQL: letters, digits and underscores, no digit in front. -/
def isIdentifierChars : List Char → Bool
  | [] => false
  | c :: rest => startsIdentifier c && rest.all continuesIdentifier

/-- Whether a text is an identifier. -/
def isIdentifier (s : String) : Bool := isIdentifierChars s.toList

/-! ### Model names -/

/-- A character of a segment of a model name. -/
def inSegment (c : Char) : Bool := isLower c || isDigit c || c = '_'

/-- The rest of a model name after a character of a segment or, with `fresh`, after a dot. -/
def isModelNameTail : Bool → List Char → Bool
  | fresh, [] => !fresh
  | fresh, c :: rest =>
    if c = '.' then !fresh && isModelNameTail true rest
    else inSegment c && isModelNameTail false rest

/-- Segments of lower-case letters, digits and underscores between dots; no digit in front. -/
def isModelNameChars : List Char → Bool
  | [] => false
  | c :: rest => (isLower c || c = '_') && isModelNameTail false rest

/-- Whether a text is a model name. -/
def isModelName (s : String) : Bool := isModelNameChars s.toList

/-! ### Language codes -/

/-- A variant after `@`: lower-case letters, at least one. -/
def isVariant : List Char → Bool
  | [] => true
  | '@' :: rest => !rest.isEmpty && rest.all isLower
  | _ => false

/-- A territory of two capitals or a script of four letters. -/
def isTerritory (letters : List Char) : Bool :=
  (letters.length = 2 && letters.all isUpper) || letters.length = 4

/-- A language of two or three letters, then maybe `_` and a territory or script, then maybe `@`
    and a variant. -/
def isLanguageChars (cs : List Char) : Bool :=
  let language := cs.takeWhile isLower
  (language.length = 2 || language.length = 3) &&
    match cs.dropWhile isLower with
    | '_' :: rest => isTerritory (rest.takeWhile isLetter) && isVariant (rest.dropWhile isLetter)
    | rest => isVariant rest

/-- Whether a text is a language code. -/
def isLanguage (s : String) : Bool := isLanguageChars s.toList

end RecordFilter.Text
