import RecordFilter.Text.Hex

/-! The CRC-32 checksum with the reflected polynomial EDB88320. -/

namespace RecordFilter.Text

/-- One bit of the division by the polynomial. -/
def crcBit (r : UInt32) : UInt32 :=
  if r &&& 1 = 1 then (r >>> 1) ^^^ 0xEDB88320 else r >>> 1

/-- The remainder after one more byte. -/
def crcByte (r : UInt32) (b : UInt8) : UInt32 :=
  (List.range 8).foldl (fun r _ => crcBit r) (r ^^^ b.toUInt32)

/-- The checksum of some bytes. -/
def crc32 (bytes : List UInt8) : UInt32 :=
  bytes.foldl crcByte 0xFFFFFFFF ^^^ 0xFFFFFFFF

/-- The checksum of a text in UTF-8, as eight digits. -/
def checksum (s : String) : List Char := hexDigits 8 (crc32 s.toUTF8.toList).toNat

/-- A checksum has eight digits. -/
theorem length_checksum (s : String) : (checksum s).length = 8 := length_hexDigits 8 _

end RecordFilter.Text
