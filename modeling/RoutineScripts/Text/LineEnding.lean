import RoutineScripts.Text.Basic

/-!
# Line endings

A text breaks its lines with `\r\n`, `\n` or `\r`. The rest of the library works on texts whose
lines break with `\n` only: `Text.normalize` brings a text into that form, and `LineEnding.apply`
brings it back into a given convention.
-/

namespace RoutineScripts

/-- A convention for breaking lines. -/
inductive LineEnding
  | crlf
  | lf
  | cr
  deriving DecidableEq, Repr

namespace Text

/-- Writes every line break, `\r\n` and a lone `\r` included, as `\n`. -/
def normalize : Text → Text
  | [] => []
  | '\r' :: '\n' :: rest => '\n' :: normalize rest
  | c :: rest => (if c = '\r' then '\n' else c) :: normalize rest

/-- The lines of a text without their final `\n`. A text that ends in `\n` has no empty line
after it, and the empty text has no line. -/
def lines : Text → List Text
  | [] => []
  | c :: rest =>
      if c = '\n' then [] :: lines rest
      else match lines rest with
        | [] => [[c]]
        | line :: others => (c :: line) :: others

end Text

namespace LineEnding

/-- The characters that end a line. -/
def terminator : LineEnding → Text
  | crlf => ['\r', '\n']
  | lf => ['\n']
  | cr => ['\r']

/-- The convention of a text: `\r\n` if it occurs at all, else `\n`, else `\r`. A text without
line breaks counts as `\n`. -/
def detect (text : Text) : LineEnding :=
  if Text.occursIn ['\r', '\n'] text then crlf
  else if '\n' ∈ text then lf
  else if '\r' ∈ text then cr
  else lf

/-- Writes each `\n` of a text in this convention. -/
def apply (ending : LineEnding) (text : Text) : Text :=
  text.flatMap fun c => if c = '\n' then ending.terminator else [c]

end LineEnding

end RoutineScripts
