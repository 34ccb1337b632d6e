import RoutineScripts.Text.Recogniser

/-!
# Identifiers

Routines are identified by GUIDs of versions 1 to 5 and the standard variant. A `Guid` is kept in
its canonical form: 36 characters, hexadecimal digits in upper case, no braces. Text from a script
or a user is read by `Guid.parse?`, which disregards braces, letter case and surrounding white
space; two texts name the same routine when they have the same canonical form.

`Guid.ofDigits` makes identifiers from a sequence of digits.
-/

namespace RoutineScripts

/-- Digits and the letters A to F. -/
def isHexDigit (c : Char) : Bool :=
  c.isDigit || ('A' ≤ c && c ≤ 'F')

namespace Guid

/-- The digits that may tell the version. -/
def isVersionDigit (c : Char) : Bool :=
  '1' ≤ c && c ≤ '5'

/-- The digits that may tell the variant. -/
def isVariantDigit (c : Char) : Bool :=
  c == '8' || c == '9' || c == 'A' || c == 'B'

/-- The tests that the characters of a canonical identifier pass, one by one. The third group
starts with the version and the fourth with the variant. -/
def shape : List (Char → Bool) :=
  List.replicate 8 isHexDigit ++ (· == '-')
    :: List.replicate 4 isHexDigit ++ (· == '-')
    :: isVersionDigit :: List.replicate 3 isHexDigit ++ (· == '-')
    :: isVariantDigit :: List.replicate 3 isHexDigit ++ (· == '-')
    :: List.replicate 12 isHexDigit

/-- Accepts an identifier without braces, in any letter case. -/
def written : Recogniser :=
  Recogniser.each (shape.map fun test c => test c.toUpper)

/-- Whether a text is an identifier in canonical form. -/
def isCanonical (text : Text) : Bool :=
  match Recogniser.each shape text with
  | some (_, []) => true
  | _ => false

end Guid

/-- An identifier in canonical form. -/
structure Guid where
  text : Text
  canonical : Guid.isCanonical text = true
  deriving DecidableEq, Repr

namespace Guid

/-- Reads an identifier given with or without braces. All braces are dropped, wherever they
stand. -/
def parse? (value : Text) : Option Guid :=
  let bare := (Text.trim (value.filter fun c => c != '{' && c != '}')).asciiUpper
  if h : isCanonical bare = true then some ⟨bare, h⟩ else none

/-- The identifier between braces. -/
def braced (guid : Guid) : Text :=
  '{' :: guid.text ++ ['}']

/-- Whether two texts name the same identifier. A text that names none is not the same as
anything. -/
def same (left right : Text) : Bool :=
  match parse? left, parse? right with
  | some a, some b => a == b
  | _, _ => false

/-- The hexadecimal digit of a number below 16. Larger numbers are taken modulo 16. -/
def hexDigit (n : Nat) : Char :=
  ['0', '1', '2', '3', '4', '5', '6', '7', '8', '9', 'A', 'B', 'C', 'D', 'E', 'F'].getD (n % 16) '0'

/-- The character that tells the variant, chosen by a number modulo 4. -/
def variantDigit (n : Nat) : Char :=
  ['8', '9', 'A', 'B'].getD (n % 4) '8'

/-- The hexadecimal digit of a number is one of the digits. -/
theorem isHexDigit_hexDigit (n : Nat) : isHexDigit (hexDigit n) = true := by
  have below : ∀ m < 16, isHexDigit
      (['0', '1', '2', '3', '4', '5', '6', '7', '8', '9', 'A', 'B', 'C', 'D', 'E', 'F'].getD m
        '0') = true := by decide
  exact below _ (Nat.mod_lt _ (by decide))

/-- The digit that marks the variant is one of the four that may stand there. -/
theorem isVariantDigit_variantDigit (n : Nat) : isVariantDigit (variantDigit n) = true := by
  have below : ∀ m < 4, isVariantDigit (['8', '9', 'A', 'B'].getD m '8') = true := by decide
  exact below _ (Nat.mod_lt _ (by decide))

/-- The text of a version 4 identifier with the given digits, counted from 0 to 31. The version
digit is fixed, and the variant digit counts modulo 4. -/
def digitText (digit : Nat → Nat) : Text :=
  let group (first count : Nat) : Text :=
    (List.range' first count).map fun place => hexDigit (digit place)
  group 0 8 ++ '-' :: group 8 4 ++ '-' :: '4' :: group 13 3
    ++ '-' :: variantDigit (digit 16) :: group 17 3 ++ '-' :: group 20 12

/-- Digits in the layout of an identifier make a canonical one. -/
theorem isCanonical_digitText (digit : Nat → Nat) : isCanonical (digitText digit) = true := by
  simp [isCanonical, digitText, shape, Recogniser.each, List.range', List.replicate,
    isHexDigit_hexDigit, isVariantDigit_variantDigit, isVersionDigit]

/-- The version 4 identifier with the given digits. -/
def ofDigits (digit : Nat → Nat) : Guid :=
  ⟨digitText digit, isCanonical_digitText digit⟩

/-- The version 4 identifier whose digits are those of a number in base 16, lowest first. -/
def ofNat (n : Nat) : Guid :=
  ofDigits fun place => n >>> (4 * place)

/-- Identifiers counted in decimal in their last twelve digits, after a lead of `F`. -/
def numbered (n : Nat) : Guid :=
  ofDigits fun place => if place < 20 then 15 else n / Nat.pow 10 (31 - place) % 10

end Guid

end RoutineScripts
