import RoutineScripts.Text.Basic

/-!
# Blanks and blank lines

White space is the Unicode property of that name. It is what trimming removes and what separates
the words of a clause. The space between a keyword and the literal after it is narrower: five
ASCII characters only, tested by `isAsciiBlank`.

`Text.trimBlankLines` drops whole blank lines from both ends of a text and keeps the indentation
of its first line and the spaces that end its last one.
-/

namespace RoutineScripts

/-- The characters with the Unicode property White_Space. -/
def isBlank (c : Char) : Bool :=
  let n := c.toNat
  (9 ≤ n && n ≤ 13) || n == 0x20 || n == 0x85 || n == 0xA0 || n == 0x1680
    || (0x2000 ≤ n && n ≤ 0x200A) || n == 0x2028 || n == 0x2029 || n == 0x202F
    || n == 0x205F || n == 0x3000

/-- Space, tab, line feed, form feed and carriage return. -/
def isAsciiBlank (c : Char) : Bool :=
  c == ' ' || c == '\t' || c == '\n' || c == '\x0c' || c == '\r'

/-- Space and tab, the characters that indent a line. -/
def isIndent (c : Char) : Bool :=
  c == ' ' || c == '\t'

/-- The two characters that break a line. -/
def isBreak (c : Char) : Bool :=
  c == '\n' || c == '\r'

namespace Text

/-- The longest end of a list whose elements all pass the test. -/
def takeTail (test : Char → Bool) (text : Text) : Text :=
  (text.reverse.takeWhile test).reverse

/-- A list without the longest end whose elements all pass the test. -/
def dropTail (test : Char → Bool) (text : Text) : Text :=
  (text.reverse.dropWhile test).reverse

/-- The text without white space at either end. -/
def trim (text : Text) : Text :=
  dropTail isBlank (text.dropWhile isBlank)

/-- Writes a text with each run of white space as one space, and a final run not at all. `pending`
says that a run has been passed and not yet written. -/
def settle : Bool → Text → Text
  | _, [] => []
  | pending, c :: rest =>
      if isBlank c then settle true rest
      else if pending then ' ' :: c :: settle false rest
      else c :: settle false rest

/-- The text trimmed, with each inner run of white space written as one space. -/
def collapse (text : Text) : Text :=
  settle false (text.dropWhile isBlank)

/-- Drops whole blank lines from both ends. White space before the first visible character goes
up to and including its last line break; white space after the last visible character goes from
its first line break on. -/
def trimBlankLines (text : Text) : Text :=
  let visible := text.dropWhile isBlank
  takeTail (!isBreak ·) (text.takeWhile isBlank)
    ++ dropTail isBlank visible
    ++ (takeTail isBlank visible).takeWhile (!isBreak ·)

end Text

end RoutineScripts
