import RoutineScripts.Routine.Attributes
import RoutineScripts.Text.Recogniser

/-!
# Statement headers

A routine definition starts with `CREATE`, optionally `OR REPLACE`, and the kind of routine. The
first header in a text counts, wherever it stands.
-/

namespace RoutineScripts

/-- The words that start a definition, as written, with the white space after them. -/
structure Header where
  kind : Kind
  written : Text
  deriving DecidableEq, Repr

namespace Header

/-- Reads the word for a kind of routine. -/
def readKind? (text : Text) : Option (Kind × Text × Text) :=
  match Recogniser.keyword "FUNCTION" text with
  | some (word, rest) => some (.function, word, rest)
  | none => (Recogniser.keyword "PROCEDURE" text).map fun (word, rest) => (.procedure, word, rest)

/-- Accepts `CREATE`, optionally followed by `OR REPLACE`, and the white space after it. -/
def create : Recogniser :=
  .sequence [.keyword "CREATE", .blanks,
    .optional (.sequence [.keyword "OR", .blanks, .keyword "REPLACE", .blanks])]

/-- Reads a header at the front of a text. -/
def read? (text : Text) : Option (Header × Text) :=
  match create text with
  | none => none
  | some (opening, rest) =>
      match readKind? rest with
      | none => none
      | some (kind, word, rest) =>
          (Recogniser.blanks rest).map fun (gap, after) => (⟨kind, opening ++ word ++ gap⟩, after)

/-- Splits a text into what stands before its first header, the header, and what follows it. -/
def find? (text : Text) : Option (Text × Header × Text) :=
  search (fun _ rest => read? rest) none text

/-- A kind and what follows it make up the text. -/
theorem eq_append_of_readKind? {text word rest : Text} {kind : Kind}
    (found : readKind? text = some (kind, word, rest)) : text = word ++ rest := by
  unfold readKind? at found
  split at found
  case h_1 spelled =>
    cases found
    exact Recogniser.splits_keyword _ _ _ _ spelled
  case h_2 =>
    simp only [Option.map_eq_some_iff, Prod.exists, Prod.mk.injEq] at found
    obtain ⟨letters, tail, spelled, _, rfl, rfl⟩ := found
    exact Recogniser.splits_keyword _ _ _ _ spelled

/-- The words before the kind are taken from the front of the text. -/
theorem splits_create : create.Splits := by
  apply Recogniser.splits_sequence
  simp only [List.forall_mem_cons]
  refine ⟨Recogniser.splits_keyword _, Recogniser.splits_blanks, Recogniser.splits_optional ?_,
    fun _ member => absurd member List.not_mem_nil⟩
  apply Recogniser.splits_sequence
  simp only [List.forall_mem_cons]
  exact ⟨Recogniser.splits_keyword _, Recogniser.splits_blanks, Recogniser.splits_keyword _,
    Recogniser.splits_blanks, fun _ member => absurd member List.not_mem_nil⟩

/-- A header and what follows it make up the text. -/
theorem eq_append_of_read? {text after : Text} {header : Header}
    (found : read? text = some (header, after)) : text = header.written ++ after := by
  unfold read? at found
  split at found
  case h_1 => cases found
  case h_2 opening rest created =>
    split at found
    case h_1 => cases found
    case h_2 kind word gap named =>
      simp only [Option.map_eq_some_iff, Prod.exists, Prod.mk.injEq] at found
      obtain ⟨blanks, tail, blank, rfl, rfl⟩ := found
      rw [splits_create _ _ _ created, eq_append_of_readKind? named,
        Recogniser.splits_blanks _ _ _ blank]
      simp

/-- The parts of a text with a header make up the text. -/
theorem eq_append_of_find? {text before after : Text} {header : Header}
    (found : find? text = some (before, header, after)) :
    text = before ++ header.written ++ after := by
  obtain ⟨rest, split, read⟩ := eq_append_of_search found
  rw [split, eq_append_of_read? read, List.append_assoc]

end Header

end RoutineScripts
