import RoutineScripts.Marker.Basic
import RoutineScripts.Routine.Script
import RoutineScripts.Text.WordCharacter

/-!
# Placing markers

`Marker.ensure` gives the body of a script a marker with a given identifier and leaves the rest of
the text alone.

* A line of the body that already starts with a marker keeps its indentation and everything after
  the marker; only the marker changes. What stands in its braces need not be an identifier.
* Otherwise, in a `plpgsql` script, a marker line is put after the first line that starts with a
  top-level `BEGIN`, indented like the line that follows.
* Otherwise it is put after the first line break of the body.

The text is returned unchanged when the identifier is not one, when the text is no script, when the
body is not dollar-quoted, and when a `plpgsql` body has no such `BEGIN`. The result breaks its
lines in the convention of the text.
-/

namespace RoutineScripts

namespace Marker

/-- The notice at the end of a marker line. -/
def notice : Text :=
  "DON'T CHANGE THIS LINE! The model sync uses this ID.".toList

/-- A marker with a given identifier. -/
def token (guid : Guid) : Text :=
  "@GUID ".toList ++ guid.braced

/-- A line comment that holds a marker and the notice. -/
def line (guid : Guid) : Text :=
  "-- ".toList ++ token guid ++ " - ".toList ++ notice

/-- Whether a line starts after this character. -/
def startsLine (previous : Option Char) : Bool :=
  previous.all (· == '\n')

/-- Accepts the start of a line up to a marker: indentation, optionally followed by two dashes and
more indentation. -/
def lead : Recogniser :=
  .sequence [.run isIndent, .optional (.sequence [.char '-', .char '-', .run isIndent])]

/-- Accepts the word `@GUID` and any text in braces. -/
def loose : Recogniser :=
  .sequence [.keyword "@GUID", .run isBlank, .char '{', .run1 (· != '}'), .char '}']

/-- Splits a body at the first marker that starts a line: the text up to it, the marker, and the
text after it. -/
def splitExisting? (body : Text) : Option (Text × Text × Text) :=
  (search (fun previous text =>
      if startsLine previous then
        match lead text with
        | none => none
        | some (start, rest) =>
            (loose rest).map fun (found, after) => (start, found, after)
      else
        none)
    none body).map fun (passed, start, found, after) => (passed ++ start, found, after)

/-- Whether the word `BEGIN` stands at the front of some glyphs as a whole word at top level. -/
def beginsBlock (glyphs : List Glyph) : Bool :=
  glyphs.head?.any Glyph.isTopLevel &&
    match Recogniser.keyword "BEGIN" (Text.ofGlyphs (glyphs.take 6)) with
    | some (_, after) => endsWord after
    | none => false

/-- Splits a body after the first line that starts with a top-level `BEGIN`: the text up to and
with that word, and the text after it. -/
def splitBegin? (body : Text) : Option (Text × Text) :=
  (search (fun previous glyphs =>
      if startsLine (previous.map Glyph.char) then
        let indent := glyphs.takeWhile fun glyph => isIndent glyph.char
        let rest := glyphs.dropWhile fun glyph => isIndent glyph.char
        if beginsBlock rest then some (indent ++ rest.take 5, rest.drop 5) else none
      else
        none)
    none body.scan).map fun (passed, start, after) =>
      (Text.ofGlyphs (passed ++ start), Text.ofGlyphs after)

/-- Puts a line after the line that a text starts with. The new line is indented like the one that
follows it. Where there is no line break, one is added. -/
def insertAfterLine (newLine : Text) (text : Text) : Text :=
  text.takeWhile (· != '\n') ++ '\n' ::
    match text.dropWhile (· != '\n') with
    | [] => newLine ++ ['\n']
    | _ :: following => following.takeWhile isIndent ++ newLine ++ '\n' :: following

/-- Puts a line after the first line break of a body, or at its start if there is none. -/
def insertAfterOpening (newLine : Text) (body : Text) : Text :=
  match body.dropWhile (· != '\n') with
  | [] => newLine ++ '\n' :: body
  | _ :: following => body.takeWhile (· != '\n') ++ '\n' :: newLine ++ '\n' :: following

/-- Reads the name `plpgsql`, quoted or as a whole word. -/
def isPlpgsqlName (text : Text) : Bool :=
  (Recogniser.sequence [.char '"', .keyword "PLPGSQL", .char '"'] text).isSome ||
    match Recogniser.keyword "PLPGSQL" text with
    | some (_, after) => endsWord after
    | none => false

/-- Whether a text declares the language `plpgsql` anywhere. -/
def declaresPlpgsql (text : Text) : Bool :=
  (search (fun previous rest =>
      if startsWord previous then
        match Recogniser.sequence [.keyword "LANGUAGE", .blanks] rest with
        | some (_, name) => if isPlpgsqlName name then some () else none
        | none => none
      else
        none)
    none text).isSome

/-- The body with a marker for an identifier. `plpgsql` says that the marker belongs into the block
of the body. -/
def updateBody? (guid : Guid) (plpgsql : Bool) (body : Text) : Option Text :=
  match splitExisting? body with
  | some (before, _, after) => some (before ++ token guid ++ after)
  | none =>
      if plpgsql then
        (splitBegin? body).map fun (before, after) => before ++ insertAfterLine (line guid) after
      else
        some (insertAfterOpening (line guid) body)

/-- The text with a marker for an identifier, where one can be placed. -/
def place? (text : Text) (guid : Guid) : Option Text :=
  match Script.ofText? text.normalize with
  | none => none
  | some script =>
      match script.body with
      | .quoted _ _ => none
      | .dollar tag content =>
          (updateBody? guid (declaresPlpgsql text.normalize) content).map fun updated =>
            (LineEnding.detect text).apply (script.splice (Literal.dollar tag updated).written)

/-- The text with a marker for the identifier `id` in the body of its script, or unchanged where
none can be placed. -/
def ensure (text id : Text) : Text :=
  match Guid.parse? id with
  | none => text
  | some guid => (place? text guid).getD text

end Marker

end RoutineScripts
