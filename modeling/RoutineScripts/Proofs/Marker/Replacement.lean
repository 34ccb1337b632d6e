import RoutineScripts.Proofs.Marker.Overwrite
import RoutineScripts.Proofs.Text.Rows

/-!
# Rows of a text whose marker is replaced

Where the body has a line that starts with a marker, marking puts another marker in its place. What
is written holds no line break, so the text loses exactly the line breaks of the replaced marker:
every row but the one where the marker starts stays as it is if and only if the marker stood on one
line (`Marker.rows_ensure_replacement`). A marker whose closing brace stands on a later line takes
the rows up to there with it (`Marker.rows_ensure_ne_of_late_brace`).
-/

namespace RoutineScripts

namespace Text

/-- A text has one row more than line feeds. -/
theorem length_rows (text : Text) : (rows text).length = text.count '\n' + 1 := by
  induction text with
  | nil => rfl
  | cons c rest ih =>
      rw [rows_cons, List.count_cons]
      by_cases isFeed : c = '\n'
      · simp [isFeed, ih]
      · simpa [isFeed, rows] using ih

/-- Two texts have as many rows and differ in one of them at most. -/
def SameRowsExcept (place : Nat) (first second : Text) : Prop :=
  (rows first).length = (rows second).length ∧
    ∀ other, other ≠ place → (rows first)[other]? = (rows second)[other]?

/-- A part without line breaks lies in one row, and the other rows do not depend on it. -/
theorem exists_rows_around (front back : Text) :
    ∃ (above : List Text) (row : Text → Text) (below : List Text),
      above.length = front.count '\n' ∧
      ∀ middle, '\n' ∉ middle → rows (front ++ middle ++ back) = above ++ row middle :: below := by
  obtain ⟨above, joined⟩ := exists_rows_append front
  refine ⟨above, fun middle => lastRow front ++ (middle ++ firstRow back), laterRows back, ?_, ?_⟩
  · have size := congrArg List.length (joined [])
    rw [List.append_nil, length_rows] at size
    simpa [firstRow, laterRows] using size.symm
  · intro middle unbroken
    obtain ⟨first, later⟩ := List.cons.inj (rows_append_of_not_mem unbroken back)
    rw [List.append_assoc, joined, first, later]

/-- **One row changes.** With a part that has no line break in the place of another part, the rows
stay as they are, apart from the one where the parts start, if and only if the other part has no
line break either. -/
theorem sameRowsExcept_iff {new : Text} (unbroken : '\n' ∉ new) (front old back : Text) :
    SameRowsExcept (front.count '\n') (front ++ old ++ back) (front ++ new ++ back) ↔
      '\n' ∉ old := by
  constructor
  · rintro ⟨size, _⟩
    have none := List.count_eq_zero.mpr unbroken
    simp only [length_rows, List.count_append] at size
    exact List.count_eq_zero.mp (by omega)
  · intro plain
    obtain ⟨above, row, below, place, shape⟩ := exists_rows_around front back
    rw [SameRowsExcept, shape old plain, shape new unbroken]
    refine ⟨by simp, fun other elsewhere => ?_⟩
    rw [← place] at elsewhere
    rcases Nat.lt_or_gt_of_ne elsewhere with before | after
    · rw [List.getElem?_append_left before, List.getElem?_append_left before]
    · rw [List.getElem?_append_right (Nat.le_of_lt after),
        List.getElem?_append_right (Nat.le_of_lt after), List.getElem?_cons,
        List.getElem?_cons, if_neg (Nat.sub_ne_zero_of_lt after),
        if_neg (Nat.sub_ne_zero_of_lt after)]

end Text

namespace Marker

open Text

/-- **Rows of a replacement.** Where the dollar-quoted body of a script has a line that starts with
a marker, the marked text has fewer rows by the number of line breaks in that marker. Its rows are
those of the text, apart from the one where the marker starts, if and only if that marker stands on
one line. -/
theorem rows_ensure_replacement {text id tag body before found after : Text} {guid : Guid}
    {script : Script} (identified : Guid.parse? id = some guid)
    (parsed : Script.ofText? text.normalize = some script) (dollar : script.body = .dollar tag body)
    (existing : splitExisting? body = some (before, found, after)) :
    text.normalize.rows.length =
        (ensure text id).normalize.rows.length + found.count '\n' ∧
      (SameRowsExcept ((script.prologue ++ tag ++ before).count '\n') text.normalize
        (ensure text id).normalize ↔ '\n' ∉ found) := by
  have first := splitExisting?_eq_some_iff.mp existing
  have source : text.normalize =
      script.prologue ++ tag ++ before ++ found ++ (after ++ tag ++ script.epilogue) := by
    rw [← Script.text_of_ofText? parsed, Script.text, dollar, Literal.written, first.split]
    simp
  have marked : (ensure text id).normalize =
      script.prologue ++ tag ++ before ++ token guid ++ (after ++ tag ++ script.epilogue) := by
    rw [normalize_ensure identified parsed dollar (.replacement first), Script.splice]
    simp
  have unbroken := newline_not_mem_token guid
  rw [source, marked]
  refine ⟨?_, sameRowsExcept_iff unbroken _ _ _⟩
  simp only [length_rows, List.count_append, List.count_eq_zero.mpr unbroken]
  omega

/-- A script whose body has a marker line without an identifier. -/
def unidentified : Script where
  before := []
  header := ⟨.function, "CREATE FUNCTION ".toList⟩
  name := ['f']
  arguments := []
  leading := " AS ".toList
  body := .dollar ['$', '$'] "\n  --@guid \x7b?\x7d kept\nSELECT 1;\n".toList
  trailing := " LANGUAGE sql;".toList
  remark := none
  after := []

/-- A marker with an identifier that does not parse is replaced within its row. -/
theorem rows_ensure_replacement_unidentified :
    let text := LineEnding.crlf.apply unidentified.text
    let id := "9968C379-A8C4-4D5A-9F23-4F79E7C3B5E9".toList
    ensure text id ≠ text ∧
      SameRowsExcept 1 (Text.normalize text) (Text.normalize (ensure text id)) := by
  intro text id
  obtain ⟨guid, identified⟩ : ∃ guid, Guid.parse? id = some guid :=
    Option.isSome_iff_exists.mp (by decide +kernel)
  have parsed : Script.ofText? (Text.normalize text) = some unidentified := by decide +kernel
  have existing : splitExisting? "\n  --@guid \x7b?\x7d kept\nSELECT 1;\n".toList =
      some ("\n  --".toList, "@guid \x7b?\x7d".toList, " kept\nSELECT 1;\n".toList) := by
    decide +kernel
  refine ⟨by decide +kernel, ?_⟩
  exact (rows_ensure_replacement identified parsed rfl existing).2.mpr (by decide)

/-- **A late brace.** The marker of this body is closed two lines below, so the rows up to there are
taken for a part of it and lost. -/
theorem rows_ensure_ne_of_late_brace :
    let text :=
      "CREATE FUNCTION f() AS $$\n-- @GUID \x7b\nSELECT 1;\n-- \x7d\nSELECT 2;\n$$;".toList
    let id := "9968C379-A8C4-4D5A-9F23-4F79E7C3B5E9".toList
    Text.rows (Text.normalize (ensure text id)) =
        ["CREATE FUNCTION f() AS $$".toList,
          "-- @GUID \x7b9968C379-A8C4-4D5A-9F23-4F79E7C3B5E9\x7d".toList,
          "SELECT 2;".toList, "$$;".toList] ∧
      ¬ SameRowsExcept 1 (Text.normalize text) (Text.normalize (ensure text id)) := by
  intro text id
  have marked : Text.rows (Text.normalize (ensure text id)) =
      ["CREATE FUNCTION f() AS $$".toList,
        "-- @GUID \x7b9968C379-A8C4-4D5A-9F23-4F79E7C3B5E9\x7d".toList,
        "SELECT 2;".toList, "$$;".toList] := by decide +kernel
  have source : (Text.rows (Text.normalize text)).length = 6 := by decide +kernel
  refine ⟨marked, fun ⟨size, _⟩ => ?_⟩
  rw [source, marked] at size
  cases size

end Marker

end RoutineScripts
