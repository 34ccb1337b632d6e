import RoutineScripts.Text.Basic

/-!
# Hexadecimal text

Bytes written as two digits each, in lower case.
-/

namespace RoutineScripts

namespace Hex

/-- The digits in order. -/
def digits : List Char :=
  ['0', '1', '2', '3', '4', '5', '6', '7', '8', '9', 'a', 'b', 'c', 'd', 'e', 'f']

/-- The digit of a number below 16. -/
def digit (n : Nat) : Char :=
  digits.getD n '0'

/-- Two digits for each byte. -/
def encode (bytes : Bytes) : Text :=
  bytes.flatMap fun byte => [digit (byte.toNat / 16), digit (byte.toNat % 16)]

end Hex

end RoutineScripts
