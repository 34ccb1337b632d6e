import RoutineScripts.Routine.Header
import RoutineScripts.Routine.Literal
import RoutineScripts.Routine.Remark

/-!
# Scripts

A script is a text that defines one routine, cut into its parts: what stands before the header,
the header, the name, the arguments, the options on both sides of the body literal, the literal, a
remark on the routine, and what stands after all that. The parts hold everything that was written,
so `Script.text` puts the text together again and replacing one part changes nothing else.

The definition ends where a remark starts. Without a remark it ends just past the first top-level
semicolon, or at the end of the text.
-/

namespace RoutineScripts

/-- The parts of a script, in order. -/
structure Script where
  before : Text
  header : Header
  name : Text
  arguments : Text
  leading : Text
  body : Literal
  trailing : Text
  remark : Option Remark
  after : Text
  deriving DecidableEq, Repr

namespace Script

/-- Cuts what follows a header into the definition, a remark and the rest. -/
def cutStatement (text : Text) : Text × Option Remark × Text :=
  match Remark.find? text with
  | some (statement, remark, after) => (statement, some remark, after)
  | none =>
      match text.splitStatement? with
      | some (statement, after) => (statement, none, after)
      | none => (text, none, [])

/-- Cuts a text into the parts of the first definition in it. There is no script when the text has
no header, or when the definition has no argument list, leaves it open, or has no complete body
literal. -/
def ofText? (text : Text) : Option Script :=
  match Header.find? text with
  | none => none
  | some (before, header, tail) =>
      let (statement, remark, after) := cutStatement tail
      match statement.splitTopLevel? '(' with
      | none => none
      | some (name, rest) =>
          match Text.splitParens? rest with
          | none => none
          | some (arguments, rest) =>
              (Literal.locate? (some ')') rest).map fun (leading, body, trailing) =>
                { before, header, name, arguments, leading, body, trailing, remark, after }

/-- The text before the body literal. -/
def prologue (script : Script) : Text :=
  script.before ++ script.header.written ++ script.name ++ '(' :: script.arguments
    ++ ')' :: script.leading

/-- The text after the body literal. -/
def epilogue (script : Script) : Text :=
  script.trailing ++ (script.remark.map Remark.written).getD [] ++ script.after

/-- The text that a script was cut from. -/
def text (script : Script) : Text :=
  script.prologue ++ script.body.written ++ script.epilogue

/-- The text of a script with other text in place of its body literal. -/
def splice (script : Script) (replacement : Text) : Text :=
  script.prologue ++ replacement ++ script.epilogue

/-- The byte span of the body literal. -/
def bodySpan (script : Script) : Nat × Nat :=
  let first := script.prologue.byteLength
  (first, first + script.body.written.byteLength)

/-- The text in which options are looked for: both sides of the body literal, with a space in its
place. -/
def optionText (script : Script) : Text :=
  script.leading ++ ' ' :: script.trailing

/-- The parts of a cut statement make up the text. -/
theorem eq_append_of_cutStatement {text statement after : Text} {remark : Option Remark}
    (cut : cutStatement text = (statement, remark, after)) :
    text = statement ++ (remark.map Remark.written).getD [] ++ after := by
  unfold cutStatement at cut
  split at cut
  case h_1 found =>
    cases cut
    exact Remark.eq_append_of_find? found
  case h_2 =>
    split at cut
    case h_1 found =>
      cases cut
      simpa using Text.eq_append_of_splitStatement? found
    case h_2 =>
      cases cut
      simp

/-- **Scripts keep their text.** The parts of a script make up the text that it was cut from. -/
theorem text_of_ofText? {source : Text} {script : Script} (found : ofText? source = some script) :
    script.text = source := by
  unfold ofText? at found
  split at found
  case h_1 => cases found
  case h_2 before header tail headed =>
    cases cut : cutStatement tail with
    | mk statement others =>
      obtain ⟨remark, after⟩ := others
      simp only [cut] at found
      split at found
      case h_1 => cases found
      case h_2 name opened named =>
        split at found
        case h_1 => cases found
        case h_2 arguments rest closed =>
          simp only [Option.map_eq_some_iff, Prod.exists] at found
          obtain ⟨leading, body, trailing, located, rfl⟩ := found
          rw [Header.eq_append_of_find? headed, eq_append_of_cutStatement cut,
            Text.eq_append_of_splitTopLevel? named, Text.eq_append_of_splitParens? closed,
            Literal.eq_append_of_locate? located]
          simp [text, prologue, epilogue]

end Script

end RoutineScripts
