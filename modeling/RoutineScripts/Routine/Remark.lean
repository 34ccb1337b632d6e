import RoutineScripts.Routine.Literal
import RoutineScripts.Text.LineEnding

/-!
# Remarks

A definition may be followed by a statement `COMMENT ON FUNCTION … IS '…';` or the same for a
procedure. It is found by its words alone, without regard to comments and literals before it. The
first place where such a statement can be read in full counts; if the two tags of its dollar-quoted
literal then differ, there is no remark.
-/

namespace RoutineScripts

/-- A comment statement as written, and the comment it makes. -/
structure Remark where
  written : Text
  text : Text
  deriving DecidableEq, Repr

namespace Remark

/-- Accepts the words up to the kind of routine. -/
def opening : Recogniser :=
  .sequence [.keyword "COMMENT", .blanks, .keyword "ON", .blanks,
    .orElse (.keyword "FUNCTION") (.keyword "PROCEDURE")]

/-- Accepts a dollar tag. Letter case is disregarded here, so the tag may hold the forms of S and K
outside ASCII. -/
def dollarTag : Recogniser :=
  .sequence [.char '$', .run isFoldedIdentifierChar, .char '$']

/-- Accepts white space and the semicolon that ends the statement. -/
def ending : Recogniser :=
  .sequence [.run isBlank, .char ';']

/-- Accepts `IS` and the white space after it. -/
def introduction : Recogniser :=
  .sequence [.keyword "IS", .blanks]

/-- The literal of a comment statement in a text: what stands before it, the literal, the end of
the statement, and the text after that. -/
structure Value where
  passed : Text
  literal : Text
  close : Text
  after : Text
  deriving DecidableEq, Repr

/-- The text that a value was found in. -/
def Value.whole (value : Value) : Text :=
  value.passed ++ value.literal ++ value.close ++ value.after

/-- Reads `IS`, a string literal and the end of the statement. -/
def readQuoted? (text : Text) : Option Value :=
  match introduction text with
  | some (words, '\'' :: opened) =>
      match Text.splitQuoted? opened with
      | none => none
      | some (content, rest) =>
          (ending rest).map fun (close, after) => ⟨words, content.quote, close, after⟩
  | _ => none

/-- Reads `IS` and the opening tag of a dollar-quoted literal. The result is what was read before
the tag, the tag, and the text after it. -/
def readOpeningTag? (text : Text) : Option (Text × Text × Text) :=
  match introduction text with
  | none => none
  | some (words, rest) => (dollarTag rest).map fun (first, opened) => (words, first, opened)

/-- Reads a dollar tag that the end of the statement follows. The result is the tag, the end, and
the text after it. -/
def readClosingTag? (text : Text) : Option (Text × Text × Text) :=
  match dollarTag text with
  | none => none
  | some (last, rest) => (ending rest).map fun (close, after) => (last, close, after)

/-- The first string literal of a comment statement. -/
def findQuoted? (text : Text) : Option Value :=
  (search (fun _ rest => readQuoted? rest) none text).map fun (passed, value) =>
    { value with passed := passed ++ value.passed }

/-- The first dollar-quoted literal of a comment statement. It ends at the first tag that an end of
a statement follows, whichever tag it is. Where no such tag follows the first opening, none follows
a later one, so one opening is tried. -/
def findDollar? (text : Text) : Option Value :=
  match search (fun _ rest => readOpeningTag? rest) none text with
  | none => none
  | some (passed, words, first, opened) =>
      (search (fun _ rest => readClosingTag? rest) none opened).map
        fun (content, last, close, after) =>
          ⟨passed ++ words, first ++ content ++ last, close, after⟩

/-- The first literal of either form. -/
def findValue? (text : Text) : Option Value :=
  match findQuoted? text, findDollar? text with
  | some quoted, some dollar =>
      if quoted.passed.length < dollar.passed.length then some quoted else some dollar
  | some quoted, none => some quoted
  | none, found => found

/-- The comment that a literal stands for. There is none when a dollar-quoted literal does not end
in the tag it starts with. -/
def unquote? (literal : Text) : Option Text :=
  match RoutineScripts.dollarTag? literal with
  | some tag =>
      match Text.afterLead? tag literal with
      | none => none
      | some rest => (Text.beforeTail? tag rest).map Text.normalize
  | none =>
      let content := match literal with
        | '\'' :: rest => if rest.getLast? = some '\'' then rest.dropLast else literal
        | _ => literal
      some (Text.normalize (Text.undouble content))

/-- Splits a text into what stands before its first comment statement, the remark, and what
follows it. At least one character stands between the kind of routine and `IS`. A literal that a
later opening could take is there for the first one as well, so one opening is tried. -/
def find? (text : Text) : Option (Text × Remark × Text) :=
  match search (fun _ rest => opening rest) none text with
  | some (before, words, c :: rest) =>
      match findValue? rest with
      | none => none
      | some value =>
          (unquote? value.literal).map fun comment =>
            (before, ⟨words ++ c :: value.passed ++ value.literal ++ value.close, comment⟩,
              value.after)
  | _ => none

/-- The words before a quoted comment are taken from the front of the text. -/
theorem splits_opening : opening.Splits := by
  apply Recogniser.splits_sequence
  simp only [List.forall_mem_cons]
  exact ⟨Recogniser.splits_keyword _, Recogniser.splits_blanks, Recogniser.splits_keyword _,
    Recogniser.splits_blanks,
    Recogniser.splits_orElse (Recogniser.splits_keyword _) (Recogniser.splits_keyword _),
    fun _ member => absurd member List.not_mem_nil⟩

/-- A dollar tag is taken from the front of the text. -/
theorem splits_dollarTag : dollarTag.Splits := by
  apply Recogniser.splits_sequence
  simp only [List.forall_mem_cons]
  exact ⟨Recogniser.splits_char _, Recogniser.splits_run _, Recogniser.splits_char _,
    fun _ member => absurd member List.not_mem_nil⟩

/-- The end of a comment statement is taken from the front of the text. -/
theorem splits_ending : ending.Splits := by
  apply Recogniser.splits_sequence
  simp only [List.forall_mem_cons]
  exact ⟨Recogniser.splits_run _, Recogniser.splits_char _,
    fun _ member => absurd member List.not_mem_nil⟩

/-- The words of a comment statement are taken from the front of the text. -/
theorem splits_introduction : introduction.Splits := by
  apply Recogniser.splits_sequence
  simp only [List.forall_mem_cons]
  exact ⟨Recogniser.splits_keyword _, Recogniser.splits_blanks,
    fun _ member => absurd member List.not_mem_nil⟩

/-- A quoted value keeps the text it was read from. -/
theorem eq_whole_of_readQuoted? {text : Text} {value : Value}
    (found : readQuoted? text = some value) : text = value.whole := by
  unfold readQuoted? at found
  split at found
  case h_1 words opened introduced =>
    split at found
    case h_1 => cases found
    case h_2 content rest quoted =>
      simp only [Option.map_eq_some_iff, Prod.exists] at found
      obtain ⟨close, after, closed, rfl⟩ := found
      rw [splits_introduction _ _ _ introduced, Text.eq_append_of_splitQuoted? quoted,
        splits_ending _ _ _ closed]
      simp [Value.whole, Text.quote]
  case h_2 => cases found

/-- The parts of an opening tag and what follows them make up the text. -/
theorem eq_append_of_readOpeningTag? {text words first opened : Text}
    (found : readOpeningTag? text = some (words, first, opened)) :
    text = words ++ first ++ opened := by
  unfold readOpeningTag? at found
  split at found
  case h_1 => cases found
  case h_2 introduced rest read =>
    simp only [Option.map_eq_some_iff, Prod.exists, Prod.mk.injEq] at found
    obtain ⟨tag, tail, tagged, rfl, rfl, rfl⟩ := found
    rw [splits_introduction _ _ _ read, splits_dollarTag _ _ _ tagged, List.append_assoc]

/-- The parts of a closing tag and what follows them make up the text. -/
theorem eq_append_of_readClosingTag? {text last close after : Text}
    (found : readClosingTag? text = some (last, close, after)) : text = last ++ close ++ after := by
  unfold readClosingTag? at found
  split at found
  case h_1 => cases found
  case h_2 tag rest tagged =>
    simp only [Option.map_eq_some_iff, Prod.exists, Prod.mk.injEq] at found
    obtain ⟨ended, tail, closed, rfl, rfl, rfl⟩ := found
    rw [splits_dollarTag _ _ _ tagged, splits_ending _ _ _ closed, List.append_assoc]

/-- A quoted value that is found keeps the text it was read from. -/
theorem eq_whole_of_findQuoted? {text : Text} {value : Value}
    (found : findQuoted? text = some value) : text = value.whole := by
  simp only [findQuoted?, Option.map_eq_some_iff, Prod.exists] at found
  obtain ⟨passed, inner, searched, rfl⟩ := found
  obtain ⟨rest, split, read⟩ := eq_append_of_search searched
  rw [split, eq_whole_of_readQuoted? read]
  simp [Value.whole]

/-- A dollar-quoted value that is found keeps the text it was read from. -/
theorem eq_whole_of_findDollar? {text : Text} {value : Value}
    (found : findDollar? text = some value) : text = value.whole := by
  unfold findDollar? at found
  split at found
  case h_1 => cases found
  case h_2 passed words first opened searched =>
    simp only [Option.map_eq_some_iff, Prod.exists] at found
    obtain ⟨content, last, close, after, ended, rfl⟩ := found
    obtain ⟨rest, split, read⟩ := eq_append_of_search searched
    obtain ⟨tail, inner, closed⟩ := eq_append_of_search ended
    rw [split, eq_append_of_readOpeningTag? read, inner, eq_append_of_readClosingTag? closed]
    simp [Value.whole]

/-- A value of either form keeps the text it was read from. -/
theorem eq_whole_of_findValue? {text : Text} {value : Value}
    (found : findValue? text = some value) : text = value.whole := by
  unfold findValue? at found
  split at found
  case h_1 quoted dollar quotedFound dollarFound =>
    split at found
    case isTrue =>
      cases found
      exact eq_whole_of_findQuoted? quotedFound
    case isFalse =>
      cases found
      exact eq_whole_of_findDollar? dollarFound
  case h_2 quoted quotedFound _ =>
    cases found
    exact eq_whole_of_findQuoted? quotedFound
  case h_3 => exact eq_whole_of_findDollar? found

/-- The parts of a text with a remark make up the text. -/
theorem eq_append_of_find? {text before after : Text} {remark : Remark}
    (found : find? text = some (before, remark, after)) :
    text = before ++ remark.written ++ after := by
  unfold find? at found
  split at found
  case h_1 passed words c rest searched =>
    split at found
    case h_1 => cases found
    case h_2 value valued =>
      simp only [Option.map_eq_some_iff, Prod.mk.injEq] at found
      obtain ⟨comment, _, rfl, rfl, rfl⟩ := found
      obtain ⟨tail, split, read⟩ := eq_append_of_search searched
      rw [split, splits_opening _ _ _ read, eq_whole_of_findValue? valued]
      simp [Value.whole]
  case h_2 => cases found

/-- The first remark that starts after the byte at an offset, with its byte span. -/
def findAfter? (text : Text) (offset : Nat) : Option (Remark × Nat × Nat) :=
  match text.splitAtByte? (offset + 1) with
  | none => none
  | some (_, rest) =>
      (find? rest).map fun (before, remark, _) =>
        let first := offset + 1 + before.byteLength
        (remark, first, first + remark.written.byteLength)

end Remark

end RoutineScripts
