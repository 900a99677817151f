import RecordFilter.Text.Checksum

/-! Aliases of joined tables, short enough for an identifier. -/

namespace RecordFilter.Sql

/-- The longest identifier, in bytes. -/
def maxAlias : Nat := 63

/-- The longest front of a text that takes at most `room` bytes of UTF-8. -/
def takeBytes : Nat → List Char → List Char
  | _, [] => []
  | room, c :: rest => if c.utf8Size ≤ room then c :: takeBytes (room - c.utf8Size) rest else []

/-- An alias of at most 63 bytes for `full`: itself if it is short enough, and else its front and
    its checksum. -/
def shorten (full : String) : String :=
  if full.utf8ByteSize ≤ maxAlias then full
  else String.ofList (takeBytes (maxAlias - 10) full.toList ++ ['_', '_'] ++ Text.checksum full)

/-- The alias of the table reached from `tableAlias` through `link`. -/
def makeAlias (tableAlias link : String) : String := shorten (tableAlias ++ "__" ++ link)

end RecordFilter.Sql
