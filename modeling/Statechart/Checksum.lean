/-!
# Checksums

The cyclic redundancy check with the Castagnoli polynomial (CRC-32C) of the UTF-8 bytes of
a text, written as eight hexadecimal digits.
-/

namespace Statechart.Checksum

/-- The Castagnoli polynomial, lowest coefficient first. -/
def polynomial : UInt32 := 0x82F63B78

/-- Division of the register by the polynomial, one bit further. -/
def shift (register : UInt32) : UInt32 :=
  if register &&& 1 = 1 then (register >>> 1) ^^^ polynomial else register >>> 1

/-- The register after one more byte. -/
def feed (register : UInt32) (byte : UInt8) : UInt32 :=
  Nat.repeat shift 8 (register ^^^ byte.toUInt32)

/-- The checksum of a row of bytes. -/
def crc32c (bytes : List UInt8) : UInt32 :=
  bytes.foldl feed 0xFFFFFFFF ^^^ 0xFFFFFFFF

/-- The checksum of a text, as eight lower-case hexadecimal digits. -/
def ofText (text : String) : String :=
  let ds := Nat.toDigits 16 (crc32c text.toUTF8.toList).toNat
  String.ofList (List.replicate (8 - ds.length) '0' ++ ds)

end Statechart.Checksum
