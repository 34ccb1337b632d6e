import RoutineScripts.Proofs.Text.Normalization

/-!
# Texts without blank lines at their ends

What trimming leaves has no line break before its first visible character or after its last one
(`Text.Trimmed`, `Text.trimmed_trimBlankLines`), and texts of that kind are exactly those that
trimming leaves as they are (`Text.trimBlankLines_eq_self_iff`). So trimming again changes nothing.
Together with what is known of the parts that go, this is `Text.trimBlankLines_normal_form`.
-/

namespace RoutineScripts

namespace Text

/-- No line break stands before the first visible character, or after the last one. -/
structure Trimmed (text : Text) : Prop where
  front : ∀ c ∈ text.takeWhile isBlank, isBreak c = false
  back : ∀ c ∈ takeTail isBlank text, isBreak c = false

/-- The parts make a trimmed text when neither end holds a line break. -/
theorem Parts.trimmed_iff {lead core trail : Text} (parts : Parts lead core trail) :
    Trimmed (lead ++ core ++ trail) ↔
      (∀ c ∈ lead, isBreak c = false) ∧ ∀ c ∈ trail, isBreak c = false := by
  have before := parts.span_eq.1
  have after := (parts.tail_eq lead).1
  constructor
  · rintro ⟨front, back⟩
    rw [before] at front
    rw [after] at back
    exact ⟨front, back⟩
  · rintro ⟨front, back⟩
    exact ⟨before.symm ▸ front, after.symm ▸ back⟩

/-- **Trimming takes all blank lines off.** -/
theorem trimmed_trimBlankLines (text : Text) : Trimmed text.trimBlankLines := by
  by_cases visible : ∃ c ∈ text, isBlank c = false
  · obtain ⟨lead, core, trail, shape, parts, unbroken⟩ := exists_parts_trimBlankLines visible
    rw [shape]
    exact parts.trimmed_iff.mpr unbroken
  · have blank : ∀ c ∈ text, isBlank c = true := by simpa using visible
    have unbroken : ∀ c ∈ text.trimBlankLines, isBreak c = false := by
      intro c member
      rw [trimBlankLines_of_blank blank] at member
      simpa using mem_takeTail member
    exact ⟨fun c member => unbroken c ((List.takeWhile_sublist _).subset member),
      fun c member => unbroken c (takeTail_subset _ member)⟩

/-- **Trimming keeps the texts without blank lines at their ends,** and only them. -/
theorem trimBlankLines_eq_self_iff {text : Text} : text.trimBlankLines = text ↔ Trimmed text := by
  refine ⟨fun same => same ▸ trimmed_trimBlankLines text, fun trimmed => ?_⟩
  rcases blank_or_exists_parts text with blank | ⟨lead, core, trail, rfl, parts⟩
  · have unbroken := trimmed.front
    rw [List.takeWhile_eq_self_iff.mpr blank] at unbroken
    rw [trimBlankLines_of_blank blank, takeTail_of_forall (by simpa using unbroken)]
  · obtain ⟨front, back⟩ := parts.trimmed_iff.mp trimmed
    rw [parts.trimBlankLines_eq, takeTail_of_forall (by simpa using front),
      List.takeWhile_eq_self_iff.mpr (by simpa using back)]

/-- **Trimming is a normal form.** What is left is a part of the text, and white space goes before
and after it. What goes before ends in a line break, and what goes after starts with one, if
anything goes. Where the text has visible characters they are left, with no line break before the
first or after the last of them. A text that was trimmed stays as it is, and line breaks may be
normalised before or after. -/
theorem trimBlankLines_normal_form (text : Text) :
    (∃ above below, text = above ++ text.trimBlankLines ++ below ∧
      (∀ c ∈ above, isBlank c = true) ∧ (∀ c ∈ below, isBlank c = true) ∧
      (above = [] ∨ ∃ front z, above = front ++ [z] ∧ isBreak z = true) ∧
      (below = [] ∨ ∃ z back, below = z :: back ∧ isBreak z = true)) ∧
    ((∃ c ∈ text, isBlank c = false) → ∃ lead core trail,
      text.trimBlankLines = lead ++ core ++ trail ∧ Parts lead core trail ∧
        (∀ c ∈ lead, isBreak c = false) ∧ ∀ c ∈ trail, isBreak c = false) ∧
    text.trimBlankLines.trimBlankLines = text.trimBlankLines ∧
    text.normalize.trimBlankLines = text.trimBlankLines.normalize :=
  ⟨exists_append_trimBlankLines text, exists_parts_trimBlankLines,
    trimBlankLines_eq_self_iff.mpr (trimmed_trimBlankLines text), trimBlankLines_normalize text⟩

/-- Indentation and the spaces that end the last line stay. White space that breaks no line is kept
with them, even where it is not ASCII. -/
theorem trimBlankLines_normal_form_indented :
    let text : Text := " \r\n\u0085\t x \n\ny\u2028 \r\n \r".toList
    text.trimBlankLines = "\u0085\t x \n\ny\u2028 ".toList ∧
      ∃ lead core trail, text.trimBlankLines = lead ++ core ++ trail ∧ Parts lead core trail ∧
        (∀ c ∈ lead, isBreak c = false) ∧ ∀ c ∈ trail, isBreak c = false := by
  intro text
  obtain ⟨_, visible, _⟩ := trimBlankLines_normal_form text
  exact ⟨by decide, visible ⟨'x', by decide, by decide⟩⟩

end Text

end RoutineScripts
