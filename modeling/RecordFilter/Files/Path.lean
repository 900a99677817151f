/-! File paths with slashes. -/

namespace RecordFilter.Files

/-- The part of a reversed path before its last separators; the root keeps its slash, and a dot
    counts as a separator unless the path starts with it. -/
def dropSeparators : List Char → List Char
  | ['/'] => ['/']
  | '/' :: rest => dropSeparators rest
  | ['.', '/'] => ['/']
  | '.' :: '/' :: rest => dropSeparators rest
  | cs => cs

/-- The path of the directory that holds a path; the root and the empty path are in none. -/
def parent? (path : String) : Option String :=
  match dropSeparators path.toList.reverse with
  | [] => none
  | ['/'] => none
  | cs => some (String.ofList (dropSeparators (cs.dropWhile (· ≠ '/'))).reverse)

/-- Whether a path starts at the root. -/
def isAbsolute (path : String) : Bool := path.toList.head? = some '/'

/-- A path seen from a directory. -/
def join (base path : String) : String :=
  if isAbsolute path || base = "" then path
  else if base.toList.getLast? = some '/' then base ++ path
  else base ++ "/" ++ path

/-- The characters before the last dot and those after it, if there is a dot. -/
def splitExtension? (name : List Char) : Option (List Char × List Char) :=
  let ending := (name.reverse.takeWhile (· ≠ '.')).reverse
  if ending.length = name.length then none
  else some (name.take (name.length - ending.length - 1), ending)

/-- Whether a file name ends in `.json` after at least one other character. -/
def isJsonFile (name : String) : Bool :=
  match splitExtension? name.toList with
  | some (stem, ending) => !stem.isEmpty && ending = ['j', 's', 'o', 'n']
  | none => false

/-- The path `c.json` lies in the directory with the empty path, and `./c.json` in `.`. -/
example : parent? "c.json" = some "" ∧ parent? "./c.json" = some "." ∧
    parent? "a/b//c" = some "a/b" ∧ parent? "/" = none ∧ parent? "/c" = some "/" := by
  decide +kernel

/-- A hidden file named just by the ending is none. -/
example : isJsonFile "a.json" = true ∧ isJsonFile ".json" = false ∧
    isJsonFile "a.JSON" = false := by decide +kernel

end RecordFilter.Files
