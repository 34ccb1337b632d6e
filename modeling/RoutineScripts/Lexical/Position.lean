import RoutineScripts.Lexical.Scan

/-!
# Byte positions

The same lexical questions asked with byte offsets. A scan may start at any offset, also past the
end or inside a character of several bytes: the bytes left of a cut character are plain bytes at
top level, and a character at top level contributes each of its bytes.
-/

namespace RoutineScripts

namespace Glyph

/-- Byte offsets of the top-level bytes of some glyphs, the first of which is at `offset`. -/
def topLevelFrom : Nat → List Glyph → List Nat
  | _, [] => []
  | offset, glyph :: rest =>
      let size := glyph.char.utf8Size
      if glyph.isTopLevel then List.range' offset size ++ topLevelFrom (offset + size) rest
      else topLevelFrom (offset + size) rest

/-- Byte spans of the comments among some glyphs, the first of which is at `offset`. `opened` is
the start of a comment that is being passed. -/
def commentsFrom : Option Nat → Nat → List Glyph → List (Nat × Nat)
  | opened, offset, [] => (opened.map fun start => (start, offset)).toList
  | opened, offset, glyph :: rest =>
      let closed := (opened.map fun start => (start, offset)).toList
      let next := offset + glyph.char.utf8Size
      if glyph.opensComment then closed ++ commentsFrom (some offset) next rest
      else if glyph.isComment then commentsFrom opened next rest
      else closed ++ commentsFrom none next rest

end Glyph

namespace Text

/-- Byte offsets of the top-level bytes of a text, scanned from a byte offset in plain mode. -/
def topLevelPositions (text : Text) (start : Nat) : List Nat :=
  let (cut, rest) := text.dropBytes start
  List.range' start cut ++ Glyph.topLevelFrom (start + cut) rest.scan

/-- Whether the byte at an offset is at top level when the text is scanned from its start. -/
def isTopLevelAt (text : Text) (offset : Nat) : Bool :=
  ((text.topLevelPositions 0).takeWhile (· ≤ offset)).any (· == offset)

/-- Byte offset of the first top-level occurrence of an ASCII character at or after an offset. -/
def findTopLevel? (text : Text) (target : Char) (start : Nat) : Option Nat :=
  let (cut, rest) := text.dropBytes start
  (splitTopLevel? target rest).map fun (passed, _) => start + cut + byteLength passed

/-- Byte offset just past the first top-level semicolon at or after an offset. -/
def statementEnd? (text : Text) (start : Nat) : Option Nat :=
  (text.findTopLevel? ';' start).map (· + 1)

/-- The byte span of a parenthesised group without its parentheses, and the offset just past the
closing one. -/
structure ParenSpan where
  first : Nat
  last : Nat
  past : Nat
  deriving DecidableEq, Repr

/-- The group whose opening parenthesis is at a byte offset. -/
def parenSpan? (text : Text) (opening : Nat) : Option ParenSpan :=
  let (cut, rest) := text.dropBytes (opening + 1)
  (splitParens? rest).map fun (inner, _) =>
    let last := opening + 1 + cut + byteLength inner
    ⟨opening + 1, last, last + 1⟩

/-- Byte spans of the comments of a text, delimiters included. A line comment stops before its
line break, and a comment that is not closed runs to the end. -/
def commentSpans (text : Text) : List (Nat × Nat) :=
  Glyph.commentsFrom none 0 text.scan

/-- The dollar tag at a byte offset. -/
def dollarTagAt? (text : Text) (offset : Nat) : Option Text :=
  match text.splitAtByte? offset with
  | some (_, rest) => dollarTag? rest
  | none => none

/-- Whether `word` stands at a byte offset as a whole word. -/
def isKeywordAt (text : Text) (offset : Nat) (word : Text) : Bool :=
  match text.splitAtByte? offset with
  | some (before, rest) => keywordAt before.getLast? rest word
  | none => false

/-- Byte offset of the first character at or after an offset that is not an ASCII blank. -/
def skipBlanks (text : Text) (offset : Nat) : Nat :=
  match text.splitAtByte? offset with
  | some (_, rest) => offset + byteLength (rest.takeWhile isAsciiBlank)
  | none => offset

end Text

end RoutineScripts
