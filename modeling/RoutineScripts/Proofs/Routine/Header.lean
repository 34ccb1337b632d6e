import RoutineScripts.Proofs.Text.Recogniser
import RoutineScripts.Proofs.Text.Search
import RoutineScripts.Routine.Header

/-!
# Where a header stands

A header is made of words and white space, so it is read without regard to anything from the next
opening parenthesis on (`Header.find?_congr`), and nothing in it opens a comment or a quoted span,
ends a statement or opens an argument list (`Header.not_mem_written`).
-/

namespace RoutineScripts

namespace Header

open Recogniser

theorem stopsAt_create : create.StopsAt '(' := by
  apply stopsAt_sequence
  simp only [List.forall_mem_cons]
  refine ⟨stopsAt_keyword (by decide), stopsAt_blanks (by decide), stopsAt_optional ?_,
    fun _ member => absurd member List.not_mem_nil⟩
  apply stopsAt_sequence
  simp only [List.forall_mem_cons]
  exact ⟨stopsAt_keyword (by decide), stopsAt_blanks (by decide), stopsAt_keyword (by decide),
    stopsAt_blanks (by decide), fun _ member => absurd member List.not_mem_nil⟩

/-- A kind is read up to a parenthesis. -/
theorem readKind?_stops (front back : Text) :
    readKind? (front ++ '(' :: back) =
      (readKind? front).map fun (kind, word, rest) => (kind, word, rest ++ '(' :: back) := by
  have functions : (keyword "FUNCTION").StopsAt '(' := stopsAt_keyword (by decide)
  have procedures : (keyword "PROCEDURE").StopsAt '(' := stopsAt_keyword (by decide)
  rw [readKind?, readKind?, functions, procedures]
  cases keyword "FUNCTION" front with
  | some parts => rfl
  | none => cases keyword "PROCEDURE" front <;> rfl

/-- A header is read up to a parenthesis. -/
theorem read?_stops (front back : Text) :
    read? (front ++ '(' :: back) =
      (read? front).map fun (header, rest) => (header, rest ++ '(' :: back) := by
  have gaps : blanks.StopsAt '(' := stopsAt_blanks (by decide)
  rw [read?, read?, stopsAt_create]
  cases create front with
  | none => rfl
  | some opening =>
      simp only [Option.map_some, readKind?_stops]
      cases readKind? opening.2 with
      | none => rfl
      | some kinded =>
          simp only [Option.map_some, gaps kinded.2.2 back]
          cases blanks kinded.2.2 <;> rfl

/-- **Headers do not look past a parenthesis.** What follows the next opening parenthesis has no
part in finding a header. -/
theorem find?_congr {before name back : Text} {header : Header}
    (found : find? (before ++ header.written ++ name ++ '(' :: back) =
      some (before, header, name ++ '(' :: back)) (other : Text) :
    find? (before ++ header.written ++ name ++ '(' :: other) =
      some (before, header, name ++ '(' :: other) := by
  obtain ⟨rest, split, misses, read⟩ := search_eq_some_iff.mp found
  have whole : rest = header.written ++ name ++ '(' :: back := by
    rw [List.append_assoc, List.append_assoc, List.append_cancel_left_eq] at split
    rw [← split, List.append_assoc]
  subst whole
  refine search_eq_some_iff.mpr ⟨header.written ++ name ++ '(' :: other, by simp, ?_, ?_⟩
  · intro passed c after inside
    have refused : read? (c :: (after ++ (header.written ++ name ++ '(' :: back))) = none :=
      misses passed c after inside
    have shape (tail : Text) : c :: (after ++ (header.written ++ name ++ '(' :: tail)) =
        c :: (after ++ header.written ++ name) ++ '(' :: tail := by simp
    show read? (c :: (after ++ (header.written ++ name ++ '(' :: other))) = none
    rw [shape] at refused ⊢
    rw [read?_stops, Option.map_eq_none_iff] at refused
    rw [read?_stops, refused]
    rfl
  · rw [read?_stops, Option.map_eq_some_iff] at read
    obtain ⟨⟨seen, rest⟩, accepted, same⟩ := read
    obtain ⟨rfl, tail⟩ := Prod.mk.inj same
    obtain rfl : rest = name := by simpa using tail
    rw [read?_stops, accepted]
    rfl

/-- The characters that open a comment or a quoted span, end a statement or open an argument
list. -/
def marks : List Char :=
  ['-', '/', '$', '\'', '"', ';', '(']

/-- A mark is no white space. -/
theorem isBlank_of_mem_marks {z : Char} (mark : z ∈ marks) : isBlank z = false := by
  have checked : marks.all (!isBlank ·) = true := by decide
  simpa using List.all_eq_true.mp checked z mark

theorem omits_keyword_of_mem_marks {z : Char} (mark : z ∈ marks) {word : String}
    (none : marks.all (avoids · word.toList) = true) : (keyword word).Omits z :=
  omits_keyword (List.all_eq_true.mp none z mark)

theorem omits_create {z : Char} (mark : z ∈ marks) : create.Omits z := by
  have visible := isBlank_of_mem_marks mark
  apply omits_sequence
  simp only [List.forall_mem_cons]
  refine ⟨omits_keyword_of_mem_marks mark (by decide), omits_blanks visible, omits_optional ?_,
    fun _ member => absurd member List.not_mem_nil⟩
  apply omits_sequence
  simp only [List.forall_mem_cons]
  exact ⟨omits_keyword_of_mem_marks mark (by decide), omits_blanks visible,
    omits_keyword_of_mem_marks mark (by decide), omits_blanks visible,
    fun _ member => absurd member List.not_mem_nil⟩

/-- A mark does not stand in the word of a kind. -/
theorem not_mem_of_readKind? {z : Char} (mark : z ∈ marks) {text word rest : Text} {kind : Kind}
    (found : readKind? text = some (kind, word, rest)) : z ∉ word := by
  unfold readKind? at found
  split at found
  case h_1 read =>
    cases found
    exact omits_keyword_of_mem_marks mark (by decide) _ _ _ read
  case h_2 =>
    simp only [Option.map_eq_some_iff, Prod.exists, Prod.mk.injEq] at found
    obtain ⟨_, _, read, _, rfl, rfl⟩ := found
    exact omits_keyword_of_mem_marks mark (by decide) _ _ _ read

/-- **Headers are plain.** A header has at least one character, and it holds no mark. -/
theorem not_mem_written {text before after : Text} {header : Header}
    (found : find? text = some (before, header, after)) :
    header.written ≠ [] ∧ ∀ z ∈ marks, z ∉ header.written := by
  obtain ⟨rest, _, read⟩ := eq_append_of_search found
  unfold read? at read
  split at read
  case h_1 => cases read
  case h_2 opening others created =>
    split at read
    case h_1 => cases read
    case h_2 kind word spaced named =>
      simp only [Option.map_eq_some_iff, Prod.exists, Prod.mk.injEq] at read
      obtain ⟨gap, _, blank, rfl, _⟩ := read
      refine ⟨?_, fun z mark => ?_⟩
      · simp [(blanks_eq_some_iff.mp blank).1]
      · have visible := isBlank_of_mem_marks mark
        simp only [List.mem_append, not_or]
        exact ⟨⟨omits_create mark _ _ _ created, not_mem_of_readKind? mark named⟩,
          omits_blanks visible _ _ _ blank⟩

/-- The word `CREATE` is accepted when no `OR` follows it. -/
theorem create_append {rest : Text} (visible : rest.head?.any isBlank = false)
    (other : keyword "OR" rest = none) :
    create ("CREATE".toList ++ ' ' :: rest) = some ("CREATE".toList ++ [' '], rest) := by
  have noReplace : Recogniser.optional
      (Recogniser.sequence [keyword "OR", blanks, keyword "REPLACE", blanks]) rest =
        some ([], rest) := by
    simp [Recogniser.optional, Recogniser.sequence, andThen, other]
  simp only [create, Recogniser.sequence, List.foldr_cons, List.foldr_nil, andThen,
    keyword_append "CREATE" (by decide), blanks_space visible] at noReplace ⊢
  rw [noReplace]
  rfl

/-- The header of a function is read where it is written in upper case. -/
theorem read?_function (rest : Text) (visible : rest.head?.any isBlank = false) :
    read? ("CREATE FUNCTION ".toList ++ rest) =
      some (⟨.function, "CREATE FUNCTION ".toList⟩, rest) := by
  have words : "CREATE FUNCTION ".toList =
      "CREATE".toList ++ ' ' :: ("FUNCTION".toList ++ [' ']) := rfl
  have created : create ("CREATE FUNCTION ".toList ++ rest) =
      some ("CREATE".toList ++ [' '], "FUNCTION".toList ++ ' ' :: rest) := by
    have apart : "CREATE FUNCTION ".toList ++ rest =
        "CREATE".toList ++ ' ' :: ("FUNCTION".toList ++ ' ' :: rest) := by
      rw [words, List.append_assoc, List.cons_append, List.append_assoc, List.singleton_append]
    rw [apart, create_append rfl rfl]
  have named : readKind? ("FUNCTION".toList ++ ' ' :: rest) =
      some (.function, "FUNCTION".toList, ' ' :: rest) := by
    rw [readKind?, keyword_append "FUNCTION" (by decide)]
  rw [read?, created]
  simp only [named, blanks_space visible, Option.map_some]
  rfl

end Header

end RoutineScripts
