import RoutineScripts.Proofs.Lexical.Balance
import RoutineScripts.Proofs.Lexical.Refinement
import RoutineScripts.Proofs.Text.Words
import RoutineScripts.Routine.Name

/-!
# Quoted names

An identifier between double quotes can hold any character but the quote. Its quotes are all that
the scan takes notice of (`Text.settles_quoteName`), so the dot between two such identifiers is the
one that qualifies a name (`QualifiedName.ofText_quoteName`).
-/

namespace RoutineScripts

namespace Text

/-- Puts an identifier between double quotes. -/
def quoteName (name : Text) : Text :=
  '"' :: name ++ ['"']

/-- A quoted identifier is passed over, and only its last quote is at top level. -/
theorem settles_quoteName {name : Text} (bare : '"' ∉ name) (back : Text) :
    Settles name.quoteName back ∧
      ∀ glyph ∈ glyphs name.quoteName back, glyph.isTopLevel = true → glyph.char = '"' := by
  have stays : ∀ front c tail, name = front ++ c :: tail →
      Mode.doubleQuoted.advance c (tail ++ '"' :: back) = ⟨.doubleQuoted, 0⟩ := by
    rintro front c tail rfl
    have differs : c ≠ '"' := by
      rintro rfl
      exact bare (by simp)
    simp [Mode.advance, differs]
  obtain ⟨⟨last, reached⟩, inside⟩ := ScanState.inside_of_stays stays .normal
  have opened : ScanState.start.after ('"' :: name) ('"' :: back) =
      ScanState.after ⟨.normal, .doubleQuoted, 0⟩ name ('"' :: back) := rfl
  refine ⟨?_, ?_⟩
  · rw [Settles, quoteName, ScanState.after_append, List.singleton_append, opened, reached]
    exact ⟨rfl, rfl⟩
  · intro glyph member topLevel
    rw [glyphs, quoteName, ScanState.glyphs_append, List.singleton_append] at member
    rcases List.mem_append.mp member with inFront | atEnd
    · rcases List.mem_cons.mp inFront with rfl | inName
      · exact ScanState.glyph_char ..
      · simp [Glyph.isTopLevel, (inside glyph inName).2] at topLevel
    · obtain rfl := List.mem_singleton.mp atEnd
      exact ScanState.glyph_char ..

/-- A search passes over a name between quotes. -/
theorem passes_quoteName {name : Text} (bare : '"' ∉ name) {target : Char}
    (differs : target ≠ '"') (back : Text) : Passes target name.quoteName back := by
  obtain ⟨settles, quotes⟩ := settles_quoteName bare back
  refine ⟨settles, fun glyph member => ?_⟩
  rw [← Bool.not_eq_true]
  intro matched
  have topLevel : glyph.isTopLevel = true := (Bool.and_eq_true_iff.mp matched).1
  exact differs (Glyph.char_of_isTopLevelChar matched ▸ quotes glyph member topLevel)

/-- What starts and ends with a quote has no white space around it. -/
theorem trim_of_quotes (inner : Text) : trim ('"' :: inner ++ ['"']) = '"' :: inner ++ ['"'] := by
  have starts : ('"' :: inner ++ ['"']).head?.any isBlank = false := rfl
  have ends : ('"' :: inner ++ ['"']).getLast?.any isBlank = false := by
    rw [List.getLast?_concat]
    decide
  simpa using trim_append [] starts ends (by simp)

end Text

/-- A name is read back from its quotes. -/
theorem unquoteIdentifier_quoteName (name : Text) : unquoteIdentifier name.quoteName = name := by
  rw [unquoteIdentifier, Text.quoteName, Text.trim_of_quotes]
  simp

/-- **Quoted names.** A schema and a name between quotes are read back. -/
theorem QualifiedName.ofText_quoteName {schema : Text} (bare : '"' ∉ schema) (name : Text) :
    ofText (schema.quoteName ++ '.' :: name.quoteName) = ⟨some schema, name⟩ := by
  have whole : schema.quoteName ++ '.' :: name.quoteName =
      '"' :: (schema ++ '"' :: '.' :: '"' :: name) ++ ['"'] := by
    simp [Text.quoteName]
  have trimmed : (schema.quoteName ++ '.' :: name.quoteName).trim =
      schema.quoteName ++ '.' :: name.quoteName := by
    rw [whole, Text.trim_of_quotes]
  have passes : Text.Passes '.' schema.quoteName ('.' :: name.quoteName) :=
    Text.passes_quoteName bare (by decide) _
  have split : Text.splitTopLevel? '.' (schema.quoteName ++ '.' :: name.quoteName) =
      some (schema.quoteName, name.quoteName) :=
    (Text.splitTopLevel?_eq_some_iff inert_point).mpr ⟨rfl, passes.settles, passes.none⟩
  rw [ofText, trimmed, split]
  simp only [unquoteIdentifier_quoteName]

end RoutineScripts
