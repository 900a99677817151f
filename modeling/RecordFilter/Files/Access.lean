/-! What the program needs of its surroundings. -/

namespace RecordFilter.Files

/-- Access to files and to the input of the program, in a monad. What cannot be read is told by a
    reason. -/
structure Access (m : Type → Type) where
  /-- The text of a file. -/
  readText : String → m (Except String String)
  /-- Whether a path leads to a directory. -/
  isDirectory : String → m Bool
  /-- The names in a directory, in any order. Single entries of it may not be readable. -/
  names : String → m (Except String (List (Except String String)))
  /-- The whole input of the program. -/
  readInput : m (Except String String)

/-- The reason for input that is not UTF-8. -/
def notUtf8 : String := "stream did not contain valid UTF-8"

end RecordFilter.Files
