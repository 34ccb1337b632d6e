import RoutineScripts.Marker.Placement
import RoutineScripts.Proofs.Text.Normalization

/-!
# Declarations and line breaks

The kind of a line break has no part in whether a text declares `plpgsql`
(`Marker.declaresPlpgsql_normalize`). The words of a declaration hold no line break, and the white
space between them may be any.
-/

namespace RoutineScripts

namespace Marker

open Recogniser Text

/-- The name is read the same before and after normalization. -/
theorem isPlpgsqlName_normalize (text : Text) :
    isPlpgsqlName text.normalize = isPlpgsqlName text := by
  have word : (keyword "PLPGSQL").Normalizes := normalizes_keyword (by decide) (by decide)
  have quoted : (Recogniser.sequence [.char '"', .keyword "PLPGSQL", .char '"']).Normalizes := by
    apply normalizes_sequence
    simp only [List.forall_mem_cons]
    exact ⟨normalizes_char (by decide), word, normalizes_char (by decide),
      fun _ member => absurd member List.not_mem_nil⟩
  have alike : isWordChar '\r' = isWordChar '\n' := by decide
  rw [isPlpgsqlName, isPlpgsqlName, quoted.commutes, Option.isSome_map, word.commutes]
  congr 1
  cases keyword "PLPGSQL" text with
  | none => rfl
  | some parts => simp only [Option.map_some, endsWord, any_head?_normalize alike]

/-- The test by which a declaration is looked for. -/
def declarationTest (previous : Option Char) (rest : Text) : Option Unit :=
  if startsWord previous then
    match Recogniser.sequence [.keyword "LANGUAGE", .blanks] rest with
    | some (_, name) => if isPlpgsqlName name then some () else none
    | none => none
  else
    none

/-- A declaration is found by a search. -/
theorem declaresPlpgsql_eq (text : Text) :
    declaresPlpgsql text = (search declarationTest none text).isSome :=
  rfl

/-- The test of that search commutes with normalization. -/
theorem declarationTest_normalize (previous : Option Char) (text : Text) :
    declarationTest (previousUnified previous) text.normalize =
      (declarationTest previous text).map id := by
  have words : (Recogniser.sequence [.keyword "LANGUAGE", .blanks]).Normalizes := by
    apply normalizes_sequence
    simp only [List.forall_mem_cons]
    exact ⟨normalizes_keyword (by decide) (by decide), normalizes_blanks,
      fun _ member => absurd member List.not_mem_nil⟩
  rw [declarationTest, declarationTest, startsWord_previousUnified, words.commutes, Option.map_id]
  cases Recogniser.sequence [.keyword "LANGUAGE", .blanks] text with
  | none => rfl
  | some parts => simp only [Option.map_some, isPlpgsqlName_normalize, id]

theorem declarationTest_break (previous : Option Char) (c : Char) (rest : Text)
    (breaks : isBreak c = true) : declarationTest previous (c :: rest) = none := by
  have refused : Recogniser.sequence [.keyword "LANGUAGE", .blanks] (c :: rest) = none := by
    obtain rfl | rfl := eq_of_isBreak breaks <;> rfl
  rw [declarationTest, refused, ite_self]

/-- **Declarations ignore the kind of line breaks.** -/
theorem declaresPlpgsql_normalize (text : Text) :
    declaresPlpgsql text.normalize = declaresPlpgsql text := by
  have found := search_normalize declarationTest_break declarationTest_normalize none text
  rw [previousUnified, Option.map_none] at found
  rw [declaresPlpgsql_eq, declaresPlpgsql_eq, found, Option.isSome_map]

end Marker

end RoutineScripts
