import RoutineScripts.Text.Basic

/-!
# UTF-16

Reading bytes as 16-bit units and units as characters. A surrogate without its partner and a
single last byte read as U+FFFD. A leading surrogate directly before a single last byte makes one
fault together with it.
-/

namespace RoutineScripts

namespace Utf16

/-- The order of the two bytes of a unit. -/
inductive ByteOrder
  | littleEndian
  | bigEndian
  deriving DecidableEq, Repr

/-- The units of a byte sequence. A single last byte makes no unit. -/
def units (order : ByteOrder) : Bytes → List (Option Nat)
  | [] => []
  | [_] => [none]
  | b₀ :: b₁ :: rest =>
      let unit := match order with
        | .littleEndian => b₁.toNat * 256 + b₀.toNat
        | .bigEndian => b₀.toNat * 256 + b₁.toNat
      some unit :: units order rest

/-- Whether a unit is the leading half of a pair. -/
def isLeading (unit : Nat) : Bool :=
  0xD800 ≤ unit && unit ≤ 0xDBFF

/-- Whether a unit is the trailing half of a pair. -/
def isTrailing (unit : Nat) : Bool :=
  0xDC00 ≤ unit && unit ≤ 0xDFFF

/-- The character of a pair. -/
def pair (leading trailing : Nat) : Char :=
  Char.ofNat (0x10000 + (leading - 0xD800) * 0x400 + (trailing - 0xDC00))

/-- The character of a unit that is not part of a pair. -/
def single (unit : Nat) : Char :=
  if isLeading unit || isTrailing unit then '\uFFFD' else Char.ofNat unit

/-- The text of a sequence of units. -/
def ofUnits : List (Option Nat) → Text
  | [] => []
  | [some unit] => [single unit]
  | none :: rest => '\uFFFD' :: ofUnits rest
  | some unit :: none :: rest =>
      if isLeading unit then '\uFFFD' :: ofUnits rest
      else single unit :: ofUnits (none :: rest)
  | some unit :: some next :: rest =>
      if isLeading unit && isTrailing next then pair unit next :: ofUnits rest
      else single unit :: ofUnits (some next :: rest)

/-- The text of a byte sequence. -/
def decode (order : ByteOrder) (bytes : Bytes) : Text :=
  ofUnits (units order bytes)

end Utf16

end RoutineScripts
