import RoutineScripts.Proofs.Guid
import RoutineScripts.Proofs.Marker.Lines
import RoutineScripts.Proofs.Text.Normalization

/-!
# Texts that carry a marker

A marker is read where an opening, an identifier and a closing brace follow each other
(`Marker.read?_eq_some_iff`). So a text that holds a marker with a `Guid` carries one
(`Marker.isSome_find?`), and a text without `@` or without `}` carries none.
-/

namespace RoutineScripts

namespace Marker

open Recogniser Text

/-- A marker is read when a text starts with its opening, a written identifier and a brace. -/
theorem read?_eq_some_iff {text id : Text} :
    read? text = some id ↔
      ∃ opening inner rest, text = opening ++ inner ++ '}' :: rest ∧ IsOpening opening ∧
        Guid.written (inner ++ '}' :: rest) = some (inner, '}' :: rest) ∧
        id = '{' :: inner ++ ['}'] := by
  rw [read?]
  constructor
  · intro found
    split at found
    case h_1 => cases found
    case h_2 front braced opened =>
      simp only [Recogniser.sequence, List.foldr_cons, List.foldr_nil, andThen_eq_some_iff,
        keyword_eq_some_iff, run_eq_some_iff, nothing, Option.some.injEq, Prod.mk.injEq] at opened
      obtain ⟨word, _, _, ⟨spells, rfl⟩, ⟨gap, _, _, ⟨rfl, blank, _⟩, ⟨rfl, rfl⟩, rfl⟩, rfl⟩ :=
        opened
      simp only [Recogniser.sequence, List.foldr_cons, List.foldr_nil, andThen_eq_some_iff,
        char_eq_some_iff, nothing, Option.map_eq_some_iff, Prod.exists, Option.some.injEq,
        Prod.mk.injEq] at found
      obtain ⟨_, _, ⟨_, _, _, ⟨rfl, rfl⟩, ⟨inner, _, _, written, ⟨_, _, _, ⟨rfl, rfl⟩, ⟨rfl, rfl⟩,
        rfl⟩, rfl⟩, rfl⟩, rfl⟩ := found
      have split := splits_each _ _ _ _ written
      subst split
      exact ⟨word ++ gap ++ ['{'], inner, _, by simp, ⟨word, gap, rfl, spells, blank⟩, written,
        by simp⟩
  · rintro ⟨_, inner, rest, rfl, ⟨word, gap, rfl, spells, blank⟩, written, rfl⟩
    have opened : Recogniser.sequence [.keyword "@GUID", .run isBlank]
        (word ++ gap ++ ['{'] ++ inner ++ '}' :: rest) =
          some (word ++ gap, '{' :: (inner ++ '}' :: rest)) := by
      simp only [Recogniser.sequence, List.foldr_cons, List.foldr_nil, andThen_eq_some_iff,
        keyword_eq_some_iff, run_eq_some_iff, nothing, Option.some.injEq, Prod.mk.injEq]
      exact ⟨word, _, _, ⟨spells, by simp⟩, ⟨gap, _, _, ⟨rfl, blank, rfl⟩, ⟨rfl, rfl⟩, rfl⟩,
        by simp⟩
    have braced : Recogniser.sequence [.char '{', Guid.written, .char '}']
        ('{' :: (inner ++ '}' :: rest)) = some ('{' :: inner ++ ['}'], rest) := by
      simp only [Recogniser.sequence, List.foldr_cons, List.foldr_nil, andThen_eq_some_iff,
        char_eq_some_iff, nothing, Option.some.injEq, Prod.mk.injEq]
      exact ⟨_, _, _, ⟨rfl, rfl⟩, ⟨inner, _, _, written, ⟨_, _, _, ⟨rfl, rfl⟩, ⟨rfl, rfl⟩, rfl⟩,
        rfl⟩, by simp⟩
    rw [opened]
    simp only [braced, Option.map_some]

/-- A marker that is found is read at some place. -/
theorem exists_read?_of_find? {text id : Text} (found : find? text = some id) :
    ∃ passed rest, text = passed ++ rest ∧ read? rest = some id := by
  simp only [find?, Option.map_eq_some_iff, Prod.exists] at found
  obtain ⟨passed, _, searched, rfl⟩ := found
  obtain ⟨rest, split, accepted⟩ := eq_append_of_search searched
  exact ⟨passed, rest, split, accepted⟩

/-- A text with a marker holds an at sign and a closing brace. -/
theorem mem_of_find? {text id : Text} (found : find? text = some id) :
    '@' ∈ text ∧ '}' ∈ text := by
  obtain ⟨passed, rest, rfl, read⟩ := exists_read?_of_find? found
  obtain ⟨opening, inner, tail, rfl, isOpening, _⟩ := read?_eq_some_iff.mp read
  obtain ⟨letters, rfl⟩ := isOpening.eq_cons
  simp

/-- White space carries no marker. -/
theorem find?_of_isBlank {text : Text} (blank : ∀ c ∈ text, isBlank c = true) :
    find? text = none := by
  cases found : find? text with
  | none => rfl
  | some id => exact absurd (blank '@' (mem_of_find? found).1) (by decide)

/-- The marker of an identifier is read as it is written. -/
theorem read?_token (guid : Guid) (back : Text) :
    read? (token guid ++ back) = some guid.braced := by
  have spelled (lead : Text) :
      lead ++ guid.braced ++ back = lead ++ ['{'] ++ guid.text ++ '}' :: back := by
    simp [Guid.braced]
  exact read?_eq_some_iff.mpr ⟨"@GUID \x7b".toList, guid.text, back, spelled "@GUID ".toList,
    ⟨"@GUID".toList, [' '], rfl, ⟨rfl, rfl, rfl, rfl, rfl, trivial⟩,
      List.forall_mem_singleton.mpr rfl⟩,
    guid.written_text _, rfl⟩

/-- A text with the marker of an identifier carries one. -/
theorem isSome_find? (front back : Text) (guid : Guid) :
    (find? (front ++ token guid ++ back)).isSome = true := by
  rw [Option.isSome_iff_ne_none]
  intro nowhere
  rw [find?, Option.map_eq_none_iff, search_eq_none_iff_forall] at nowhere
  have refused : read? (token guid ++ back) = none :=
    nowhere front (token guid ++ back) (List.append_assoc ..)
  rw [read?_token] at refused
  cases refused

/-! ### Line breaks -/

/-- No marker starts at a line break. -/
theorem read?_break (c : Char) (rest : Text) (breaks : isBreak c = true) :
    read? (c :: rest) = none := by
  have refused : Recogniser.sequence [.keyword "@GUID", .run isBlank] (c :: rest) = none := by
    obtain rfl | rfl := eq_of_isBreak breaks <;> rfl
  rw [read?, refused]

theorem read?_normalize (text : Text) : read? text.normalize = read? text := by
  have words : (Recogniser.sequence [.keyword "@GUID", .run isBlank]).Normalizes := by
    apply normalizes_sequence
    simp only [List.forall_mem_cons]
    exact ⟨normalizes_keyword (by decide) (by decide), normalizes_run (by decide),
      fun _ member => absurd member List.not_mem_nil⟩
  have fails : ∀ test ∈ Guid.shape.map fun test c => test (Char.toUpper c),
      test '\n' = false ∧ test '\r' = false := by
    intro test member
    obtain ⟨other, inside, rfl⟩ := List.mem_map.mp member
    refine ⟨?_, ?_⟩ <;> rw [Bool.eq_false_iff] <;> intro passes <;>
      exact absurd (Guid.mem_alphabet inside passes) (by decide)
  have braced : (Recogniser.sequence [.char '{', Guid.written, .char '}']).Normalizes := by
    apply normalizes_sequence
    simp only [List.forall_mem_cons]
    exact ⟨normalizes_char (by decide), normalizes_each fails, normalizes_char (by decide),
      fun _ member => absurd member List.not_mem_nil⟩
  have bare : (Recogniser.sequence [.char '{', Guid.written, .char '}']).Omits '\r' := by
    apply omits_sequence
    simp only [List.forall_mem_cons]
    exact ⟨omits_char (by decide), omits_each fun test member => (fails test member).2,
      omits_char (by decide), fun _ member => absurd member List.not_mem_nil⟩
  rw [read?, read?, words.commutes]
  cases Recogniser.sequence [.keyword "@GUID", .run isBlank] text with
  | none => rfl
  | some parts =>
      simp only [Option.map_some, braced.commutes, Option.map_map]
      cases found : Recogniser.sequence [.char '{', Guid.written, .char '}'] parts.2 with
      | none => rfl
      | some read => simp [normalize_of_not_mem (bare _ _ _ found)]

/-- **Markers ignore the kind of line breaks.** -/
theorem find?_normalize (text : Text) : find? text.normalize = find? text := by
  have agrees (rest : Text) : read? rest.normalize = (read? rest).map id := by
    rw [read?_normalize, Option.map_id_fun, id]
  rw [find?, search_normalize_of_forward read?_break agrees, Option.map_map, find?]
  rfl

end Marker

end RoutineScripts
