import RoutineScripts.Proofs.Marker.Declaration
import RoutineScripts.Proofs.Marker.Lines
import RoutineScripts.Proofs.Routine.Exchange
import RoutineScripts.Proofs.Text.LineEnding

/-!
# Marking is one local edit

What marking does to a body is one of five edits (`Marker.Edit`): the marker of the first marked
line is replaced, or a marker line is inserted at one of four places. A text whose line breaks are
all of one kind changes in that place only (`Marker.ensure_eq_self_or_editsLocally`), since
normalising it, cutting it and writing it in its own convention again go together at every cut.
-/

namespace RoutineScripts

namespace Marker

open Text

/-- A text without line feeds is its own first line. -/
theorem span_newline {text : Text} (unbroken : '\n' ∉ text) :
    text.takeWhile (· != '\n') = text ∧ text.dropWhile (· != '\n') = [] := by
  have passes := bne_newline_of_not_mem unbroken
  exact ⟨List.takeWhile_eq_self_iff.mpr passes, List.dropWhile_eq_nil_iff.mpr passes⟩

/-- A text has no line break, or a first one. -/
theorem exists_line (text : Text) :
    '\n' ∉ text ∨ ∃ front back, text = front ++ '\n' :: back ∧ '\n' ∉ front := by
  by_cases broken : '\n' ∈ text
  · obtain ⟨front, back, split, absent⟩ := List.eq_append_cons_of_mem broken
    exact Or.inr ⟨front, back, split, absent⟩
  · exact Or.inl broken

section Insertion

variable {newLine text front back : Text}

/-- Below a last line, a line is inserted after a new line break. -/
theorem insertAfterLine_of_not_mem (unbroken : '\n' ∉ text) :
    insertAfterLine newLine text = text ++ '\n' :: (newLine ++ ['\n']) := by
  obtain ⟨taken, dropped⟩ := span_newline unbroken
  rw [insertAfterLine, taken, dropped]

/-- Below another line, a line is inserted with the indentation of the next one. -/
theorem insertAfterLine_append (unbroken : '\n' ∉ front) :
    insertAfterLine newLine (front ++ '\n' :: back) =
      front ++ '\n' :: (back.takeWhile isIndent ++ newLine ++ '\n' :: back) := by
  have passes := bne_newline_of_not_mem unbroken
  rw [insertAfterLine, List.takeWhile_append_of_pos passes, List.dropWhile_append_of_pos passes]
  simp

/-- Without a line feed, the marker line is put in front. -/
theorem insertAfterOpening_of_not_mem (unbroken : '\n' ∉ text) :
    insertAfterOpening newLine text = newLine ++ '\n' :: text := by
  rw [insertAfterOpening, (span_newline unbroken).2]

/-- Otherwise it is put below the first line. -/
theorem insertAfterOpening_append (unbroken : '\n' ∉ front) :
    insertAfterOpening newLine (front ++ '\n' :: back) =
      front ++ '\n' :: newLine ++ '\n' :: back := by
  have passes := bne_newline_of_not_mem unbroken
  rw [insertAfterOpening, List.takeWhile_append_of_pos passes, List.dropWhile_append_of_pos passes]
  simp

end Insertion

/-- **How a body is marked.** `Edit guid plpgsql body before old new after` says that `body` is
`before ++ old ++ after` and that marking it puts `new` in the place of `old`. -/
inductive Edit (guid : Guid) (plpgsql : Bool) (body : Text) : Text → Text → Text → Text → Prop
  /-- The marker of the first line that starts with one is replaced. -/
  | replacement {before found after : Text} (first : FirstMarker body before found after) :
      Edit guid plpgsql body before found (token guid) after
  /-- A line is inserted below the line of the first `BEGIN`, indented like the next line. -/
  | belowBegin {opening rest following : Text} (unmarked : Unmarked body)
      (declared : plpgsql = true) (first : FirstBlock body opening (rest ++ '\n' :: following))
      (sameLine : '\n' ∉ rest) :
      Edit guid plpgsql body (opening ++ rest ++ ['\n']) []
        (following.takeWhile isIndent ++ line guid ++ ['\n']) following
  /-- The line of the first `BEGIN` is the last one: it is ended, and a line is added. -/
  | belowLastLine {opening rest : Text} (unmarked : Unmarked body) (declared : plpgsql = true)
      (first : FirstBlock body opening rest) (sameLine : '\n' ∉ rest) :
      Edit guid plpgsql body (opening ++ rest) [] ('\n' :: line guid ++ ['\n']) []
  /-- A line is inserted after the first line break. -/
  | belowOpening {opening following : Text} (unmarked : Unmarked body)
      (undeclared : plpgsql = false) (split : body = opening ++ '\n' :: following)
      (sameLine : '\n' ∉ opening) :
      Edit guid plpgsql body (opening ++ ['\n']) [] (line guid ++ ['\n']) following
  /-- There is no line break: a line is inserted at the start. -/
  | atStart (unmarked : Unmarked body) (undeclared : plpgsql = false) (unbroken : '\n' ∉ body) :
      Edit guid plpgsql body [] [] (line guid ++ ['\n']) body

/-- The first block splits its body. -/
theorem FirstBlock.split {body opening after : Text} (first : FirstBlock body opening after) :
    body = opening ++ after := by
  obtain ⟨_, _, _, rfl, block, _⟩ := first
  exact block.split

/-- The first marker splits its body. -/
theorem FirstMarker.split {body before found after : Text}
    (first : FirstMarker body before found after) : body = before ++ found ++ after := by
  obtain ⟨_, _, rfl, marks, _⟩ := first
  exact marks.split

section

variable {guid : Guid} {plpgsql : Bool} {body before old new after : Text}

/-- An edit splits its body. -/
theorem Edit.split (edit : Edit guid plpgsql body before old new after) :
    body = before ++ old ++ after := by
  cases edit with
  | replacement first => exact first.split
  | belowBegin _ _ first _ => simpa using first.split
  | belowLastLine _ _ first _ => simpa using first.split
  | belowOpening _ _ split _ => simpa using split
  | atStart => rfl

/-- **Marking a body is one edit.** -/
theorem updateBody?_eq_some_iff {updated : Text} :
    updateBody? guid plpgsql body = some updated ↔
      ∃ before old new after, Edit guid plpgsql body before old new after ∧
        updated = before ++ new ++ after := by
  constructor
  · intro found
    rw [updateBody?] at found
    split at found
    case h_1 before marker after existing =>
      cases found
      exact ⟨before, marker, token guid, after,
        .replacement (splitExisting?_eq_some_iff.mp existing), rfl⟩
    case h_2 absent =>
      have unmarked := splitExisting?_eq_none_iff.mp absent
      split at found
      case isTrue declared =>
        simp only [Option.map_eq_some_iff, Prod.exists, splitBegin?_eq_some_iff] at found
        obtain ⟨opening, rest, first, rfl⟩ := found
        rcases exists_line rest with sameLine | ⟨front, following, rfl, sameLine⟩
        · refine ⟨_, _, _, _, .belowLastLine unmarked declared first sameLine, ?_⟩
          rw [insertAfterLine_of_not_mem sameLine]
          simp
        · refine ⟨_, _, _, _, .belowBegin unmarked declared first sameLine, ?_⟩
          rw [insertAfterLine_append sameLine]
          simp
      case isFalse undeclared =>
        cases found
        rw [Bool.not_eq_true] at undeclared
        rcases exists_line body with unbroken | ⟨opening, following, rfl, sameLine⟩
        · refine ⟨_, _, _, _, .atStart unmarked undeclared unbroken, ?_⟩
          rw [insertAfterOpening_of_not_mem unbroken]
          simp
        · refine ⟨_, _, _, _, .belowOpening unmarked undeclared rfl sameLine, ?_⟩
          rw [insertAfterOpening_append sameLine]
          simp
  · rintro ⟨before, old, new, after, edit, rfl⟩
    rw [updateBody?]
    cases edit with
    | replacement first => rw [splitExisting?_eq_some_iff.mpr first]
    | belowBegin unmarked declared first sameLine =>
        rw [splitExisting?_eq_none_iff.mpr unmarked]
        simp only [declared, if_true, splitBegin?_eq_some_iff.mpr first, Option.map_some,
          insertAfterLine_append sameLine]
        simp
    | belowLastLine unmarked declared first sameLine =>
        rw [splitExisting?_eq_none_iff.mpr unmarked]
        simp only [declared, if_true, splitBegin?_eq_some_iff.mpr first, Option.map_some,
          insertAfterLine_of_not_mem sameLine]
        simp
    | belowOpening unmarked undeclared split sameLine =>
        rw [splitExisting?_eq_none_iff.mpr unmarked, split]
        simp only [undeclared, Bool.false_eq_true, if_false, insertAfterOpening_append sameLine]
        simp
    | atStart unmarked undeclared unbroken =>
        rw [splitExisting?_eq_none_iff.mpr unmarked]
        simp only [undeclared, Bool.false_eq_true, if_false,
          insertAfterOpening_of_not_mem unbroken]
        simp

end

/-- Marking a text writes the script with the edited body in the convention of the text. -/
theorem place?_eq_some_iff {text marked : Text} {guid : Guid} :
    place? text guid = some marked ↔
      ∃ script tag body before old new after,
        Script.ofText? text.normalize = some script ∧ script.body = .dollar tag body ∧
        Edit guid (declaresPlpgsql text) body before old new after ∧
        marked = (LineEnding.detect text).apply
          (script.splice (tag ++ (before ++ new ++ after) ++ tag)) := by
  rw [place?, declaresPlpgsql_normalize]
  cases Script.ofText? text.normalize with
  | none => simp
  | some script =>
      cases literal : script.body with
      | quoted content link => simp [literal]
      | dollar tag body =>
          simp only [literal, Option.map_eq_some_iff, updateBody?_eq_some_iff, Option.some.injEq]
          constructor
          · rintro ⟨_, ⟨before, old, new, after, edit, rfl⟩, rfl⟩
            exact ⟨script, tag, body, before, old, new, after, rfl, literal, edit, rfl⟩
          · rintro ⟨_, _, _, before, old, new, after, rfl, same, edit, rfl⟩
            rw [literal] at same
            cases same
            exact ⟨_, ⟨before, old, new, after, edit, rfl⟩, rfl⟩

/-- With a valid identifier, marking puts the marker in its place, if there is one. -/
theorem ensure_of_parse? {text id : Text} {guid : Guid} (identified : Guid.parse? id = some guid) :
    ensure text id = (place? text guid).getD text := by
  rw [ensure, identified]

/-- **One local edit.** The text holds a script with a dollar-quoted body, and marking it replaces
one part of the body as an `Edit` says. Everything up to the opening tag, the rest of the body and
everything from the closing tag on stay as they are, line breaks included. -/
def EditsLocally (text id : Text) : Prop :=
  ∃ guid script tag body before old new after front back,
    Guid.parse? id = some guid ∧
    Script.ofText? text.normalize = some script ∧
    script.body = .dollar tag body ∧
    Edit guid (declaresPlpgsql text) body before old new after ∧
    front = (LineEnding.detect text).apply script.prologue ++ tag ++
      (LineEnding.detect text).apply before ∧
    back = (LineEnding.detect text).apply after ++ tag ++
      (LineEnding.detect text).apply script.epilogue ∧
    text = front ++ (LineEnding.detect text).apply old ++ back ∧
    ensure text id = front ++ (LineEnding.detect text).apply new ++ back

/-- A dollar tag holds no line feed. -/
theorem newline_not_mem_of_isDollarTag {tag : Text} (isTag : IsDollarTag tag) : '\n' ∉ tag := by
  obtain ⟨name, rfl, identifier⟩ := isTag
  simp only [List.mem_cons, List.mem_append, List.not_mem_nil, or_false, not_or]
  refine ⟨by decide, fun member => ?_, by decide⟩
  exact absurd (identifier _ member) (by decide)

/-- **Marking is one local edit.** A text whose line breaks are all of one kind is returned as it is
or changes in one place of its body only. -/
theorem ensure_eq_self_or_editsLocally (text id : Text) (uniform : Uniform text) :
    ensure text id = text ∨ EditsLocally text id := by
  cases identified : Guid.parse? id with
  | none => exact Or.inl (by rw [ensure, identified])
  | some guid =>
      cases placed : place? text guid with
      | none => exact Or.inl (by rw [ensure_of_parse? identified, placed, Option.getD_none])
      | some marked =>
          obtain ⟨script, tag, body, before, old, new, after, parsed, dollar, edit, rfl⟩ :=
            place?_eq_some_iff.mp placed
          have isTag := (Script.opensBody_of_ofText? parsed dollar).1.isTag
          have tagged (ending : LineEnding) : ending.apply tag = tag :=
            ending.apply_of_not_mem (newline_not_mem_of_isDollarTag isTag)
          refine Or.inr ⟨guid, script, tag, body, before, old, new, after, _, _, identified, parsed,
            dollar, edit, rfl, rfl, ?_, ?_⟩
          · have source : text = (LineEnding.detect text).apply script.text := by
              rw [Script.text_of_ofText? parsed, LineEnding.apply_normalize uniform]
            rw [Script.text, dollar, Literal.written, edit.split] at source
            simpa [tagged] using source
          · rw [ensure_of_parse? identified, placed, Option.getD_some, Script.splice]
            simp [tagged]

/-- A script with CRLF line breaks is edited locally. -/
theorem editsLocally_crlf :
    EditsLocally "CREATE FUNCTION f() AS $$\r\nSELECT 1\r\n$$;".toList
      "\x7b9968c379-a8c4-4d5a-9f23-4f79e7c3b5e9\x7d".toList :=
  (ensure_eq_self_or_editsLocally _ _ ⟨.crlf, by decide +kernel⟩).resolve_left (by decide +kernel)

end Marker

end RoutineScripts
