import RoutineScripts.Text.Basic

/-!
# UTF-8

Writing a text as bytes, and reading bytes as text. Reading takes the longest start of a
well-formed character that is not one as a single fault, so that every byte sequence has a
reading: a list of characters and faults. It is well formed when there is no fault.
-/

namespace RoutineScripts

namespace Utf8

/-- The bytes of a text. -/
def encode (text : Text) : Bytes :=
  text.flatMap String.utf8EncodeChar

/-- Whether a byte lies between two others. -/
def within (low high byte : UInt8) : Bool :=
  low ≤ byte && byte ≤ high

/-- The payload of a byte that continues a character. -/
def payload (byte : UInt8) : Nat :=
  byte.toNat % 64

/-- Reads the bytes that continue a character, the first of them between `low` and `high` and the
others between 80 and BF. `value` is what was read so far. The result is the character, or a fault,
and the number of bytes read. -/
def continued : Nat → UInt8 → UInt8 → Nat → Bytes → Option Char × Nat
  | 0, _, _, value, _ => (some (Char.ofNat value), 0)
  | _ + 1, _, _, _, [] => (none, 0)
  | count + 1, low, high, value, byte :: rest =>
      if within low high byte then
        let (char, read) := continued count 0x80 0xBF (value * 64 + payload byte) rest
        (char, read + 1)
      else
        (none, 0)

/-- Reads the character that starts with `byte`, followed by `rest`. The result is the character,
or a fault, and how many bytes of `rest` belong to it. Overlong forms, surrogates and values past
the last code point are excluded by the range of the second byte. -/
def first (byte : UInt8) (rest : Bytes) : Option Char × Nat :=
  let n := byte.toNat
  if n < 0x80 then (some (Char.ofNat n), 0)
  else if within 0xC2 0xDF byte then continued 1 0x80 0xBF (n - 0xC0) rest
  else if byte == 0xE0 then continued 2 0xA0 0xBF (n - 0xE0) rest
  else if byte == 0xED then continued 2 0x80 0x9F (n - 0xE0) rest
  else if within 0xE1 0xEF byte then continued 2 0x80 0xBF (n - 0xE0) rest
  else if byte == 0xF0 then continued 3 0x90 0xBF (n - 0xF0) rest
  else if within 0xF1 0xF3 byte then continued 3 0x80 0xBF (n - 0xF0) rest
  else if byte == 0xF4 then continued 3 0x80 0x8F (n - 0xF0) rest
  else (none, 0)

/-- The characters and faults of a byte sequence. -/
def read : Bytes → List (Option Char)
  | [] => []
  | byte :: rest => (first byte rest).1 :: read (rest.drop (first byte rest).2)
termination_by bytes => bytes.length
decreasing_by simp only [List.length_drop, List.length_cons]; omega

/-- The text of a well-formed byte sequence. -/
def decode? (bytes : Bytes) : Option Text :=
  (read bytes).mapM id

/-- The text of a byte sequence, with U+FFFD in place of each fault. -/
def decode (bytes : Bytes) : Text :=
  (read bytes).map fun char => char.getD '\uFFFD'

end Utf8

end RoutineScripts
