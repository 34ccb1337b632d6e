import RoutineScripts.Encoding.Utf16
import RoutineScripts.Encoding.Utf8

/-!
# Windows-1252

The one-byte encoding of legacy scripts. Every byte has a character; most have the one of the same
number, and the bytes 80 to 9F have those of `upperControls`. A character without a byte is written
as a decimal character reference.

`Windows1252.sniff` reads bytes that may start with a byte order mark. The mark decides the
encoding and is dropped.
-/

namespace RoutineScripts

namespace Windows1252

/-- The characters of the bytes 80 to 9F. -/
def upperControls : List Char := [
  '\u20AC', '\u0081', '\u201A', '\u0192', '\u201E', '\u2026', '\u2020', '\u2021',
  '\u02C6', '\u2030', '\u0160', '\u2039', '\u0152', '\u008D', '\u017D', '\u008F',
  '\u0090', '\u2018', '\u2019', '\u201C', '\u201D', '\u2022', '\u2013', '\u2014',
  '\u02DC', '\u2122', '\u0161', '\u203A', '\u0153', '\u009D', '\u017E', '\u0178']

/-- The character of a byte. -/
def char (byte : UInt8) : Char :=
  let n := byte.toNat
  if 0x80 ≤ n && n < 0xA0 then upperControls.getD (n - 0x80) '\uFFFD' else Char.ofNat n

/-- The byte of a character, if it has one. -/
def byte? (c : Char) : Option UInt8 :=
  let n := c.toNat
  if n < 0x80 || (0xA0 ≤ n && n < 0x100) then some (UInt8.ofNat n)
  else (upperControls.findIdx? (· == c)).map fun place => UInt8.ofNat (0x80 + place)

/-- The text of a byte sequence. -/
def decode (bytes : Bytes) : Text :=
  bytes.map char

/-- The decimal digits of a number. -/
def decimal (n : Nat) : Text :=
  Nat.toDigits 10 n

/-- The bytes of a text. -/
def encode (text : Text) : Bytes :=
  text.flatMap fun c =>
    match byte? c with
    | some byte => [byte]
    | none => Utf8.encode ("&#".toList ++ decimal c.toNat ++ ";".toList)

/-- The text of a byte sequence in the encoding that its byte order mark names, and in this one
when it has no mark. -/
def sniff : Bytes → Text
  | 0xEF :: 0xBB :: 0xBF :: rest => Utf8.decode rest
  | 0xFF :: 0xFE :: rest => Utf16.decode .littleEndian rest
  | 0xFE :: 0xFF :: rest => Utf16.decode .bigEndian rest
  | bytes => decode bytes

end Windows1252

end RoutineScripts
