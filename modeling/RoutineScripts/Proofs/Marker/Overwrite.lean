import RoutineScripts.Proofs.Marker.Again
import RoutineScripts.Proofs.Routine.Opening

/-!
# The last marker counts

Marking a marked text with another identifier is as good as marking the text with that identifier
alone (`Marker.ensure_ensure_last`). The edited body is the body of the marked text, since what an
edit puts there opens no comment statement (`Marker.Edit.repels`), and the marker that the first
pass has left is the first one there, since no other line mentions a marker.
-/

namespace RoutineScripts

/-- **An edited script is read again.** Where no comment statement opens before the end of its
body, a script with another part in the body is the same script with that body, if the part holds
no `$` and opens no comment statement either. -/
theorem Script.ofText?_edit {text tag before old new after : Text} {script : Script}
    (parsed : ofText? text = some script)
    (dollar : script.body = .dollar tag (before ++ old ++ after))
    (quiet : Remark.OpensNowhere text script.before.length
      (script.prologue ++ script.body.written).length)
    (undelimited : '$' ∉ new) (repels : Remark.Repels new) :
    ofText? (script.splice (tag ++ (before ++ new ++ after) ++ tag)) =
      some { script with body := .dollar tag (before ++ new ++ after) } := by
  obtain ⟨opens, first⟩ := opensBody_of_ofText? parsed dollar
  have separates : ∃ c ∈ new, isIdentifierChar c = false := by
    obtain ⟨lead, rest, rfl, _⟩ := repels.barred
    exact ⟨'@', by simp, by decide⟩
  refine ofText?_splice parsed dollar (first.edit opens.isTag undelimited separates) quiet ?_
  rw [← text_of_ofText? parsed, Script.text, dollar, Literal.written] at quiet
  have shape (part : Text) :
      script.prologue ++ (tag ++ (before ++ part ++ after) ++ tag) ++ script.epilogue =
        script.prologue ++ tag ++ before ++ part ++ (after ++ tag ++ script.epilogue) := by simp
  have size (part : Text) : (script.prologue ++ (tag ++ (before ++ part ++ after) ++ tag)).length =
      (script.prologue ++ tag ++ before ++ part ++ (after ++ tag)).length := by simp
  rw [shape, size] at quiet
  rw [Script.splice, shape, size]
  refine quiet.edit repels ?_
  rw [prologue_eq]
  simp only [List.length_append]
  omega

namespace Marker

open Recogniser Text

/-- Whether the word `@GUID` stands in a text, in any letter case. -/
def mentions (text : Text) : Bool :=
  (search (fun _ rest => keyword "@GUID" rest) none text).isSome

/-- A text with the word in it mentions it. -/
theorem mentions_of_spells (front back : Text) {word : Text} (spells : Spells "@GUID".toList word) :
    mentions (front ++ word ++ back) = true := by
  rw [mentions, Option.isSome_iff_ne_none]
  intro nowhere
  have refused := search_eq_none_iff_forall.mp nowhere front (word ++ back) (by simp)
  rw [keyword_eq_some_iff.mpr ⟨spells, rfl⟩] at refused
  cases refused

/-- A marker that is left open is mentioned. -/
theorem LeavesOpen.mentions {above : Text} (leaves : LeavesOpen above) (below : Text) :
    mentions (above ++ below) = true := by
  obtain ⟨passed, start, _, inside, opens⟩ := leaves
  obtain ⟨word, gap, rfl, spells, _⟩ := opens.isOpening
  have found := mentions_of_spells (passed ++ start) (gap ++ ['{'] ++ inside ++ below) spells
  rw [opens.split]
  simpa using found

section

variable {guid : Guid} {plpgsql : Bool} {body before old new after lineBreak indent : Text}

/-- The text up to the brace that closes a marker has no O. -/
theorem not_isFormOf_token (guid : Guid) :
    ∀ c ∈ "@GUID ".toList ++ '{' :: guid.text, isFormOf 'O' c = false := by
  intro c member
  rw [List.mem_append, List.mem_cons] at member
  rcases member with inWord | rfl | inText
  · have word : "@GUID ".toList.all (!isFormOf 'O' ·) = true := by decide
    simpa using List.all_eq_true.mp word c inWord
  · decide
  · have digits : Guid.alphabet.all (!isFormOf 'O' ·) = true := by decide
    simpa using List.all_eq_true.mp digits c (guid.mem_alphabet_of_mem inText)

/-- The token repels comment statements. -/
theorem repels_token (guid : Guid) : Remark.Repels (token guid) where
  barred := ⟨[], "GUID ".toList ++ guid.braced, rfl, fun c member => absurd member List.not_mem_nil⟩
  closed := by
    have closed := Remark.neverOpens_append ['}'] (not_isFormOf_token guid) (by decide) (by decide)
    simpa [token_eq] using closed

/-- The token is on one line. -/
theorem newline_not_mem_token (guid : Guid) : '\n' ∉ token guid := by
  simp only [token_eq, List.mem_append, List.mem_cons, List.not_mem_nil, or_false, not_or]
  refine ⟨by decide, ⟨by decide, fun member => ?_⟩, by decide⟩
  exact absurd (guid.mem_alphabet_of_mem member) (by decide)

/-- The marker line is one line. -/
theorem newline_not_mem_line (guid : Guid) (indented : ∀ c ∈ indent, isIndent c = true) :
    '\n' ∉ indent ++ line guid := by
  simp only [line_eq, List.mem_append, not_or]
  refine ⟨fun member => ?_, ⟨⟨by decide, newline_not_mem_token guid⟩, by decide⟩, by decide⟩
  exact absurd (indented _ member) (by decide)

/-- Line breaks are white space. -/
theorem isBlank_of_mem_terminator (ending : LineEnding) :
    ∀ c ∈ ending.terminator, isBlank c = true := by
  cases ending <;> exact List.all_eq_true.mp rfl

/-- The lead of an inserted line, in any convention. -/
theorem Inserts.plain (inserts : Inserts guid before new lineBreak indent) (ending : LineEnding) :
    ∀ c ∈ ending.apply lineBreak ++ indent ++ "-- ".toList, isBlank c = true ∨ c = '-' := by
  intro c member
  simp only [List.mem_append] at member
  rcases member with (inBreak | inIndent) | inDashes
  · rcases inserts.breaks with rfl | rfl
    · cases inBreak
    · exact Or.inl (isBlank_of_mem_terminator ending c (by
        simpa [LineEnding.apply] using inBreak))
  · exact Or.inl (isBlank_of_isIndent (inserts.indented c inIndent))
  · have dashes : "-- ".toList.all (fun c => isBlank c || c == '-') = true := by decide
    simpa using List.all_eq_true.mp dashes c inDashes

/-- An inserted line is written with the line break of the text. -/
theorem Inserts.apply_eq (inserts : Inserts guid before new lineBreak indent)
    (ending : LineEnding) :
    ending.apply new = ending.apply lineBreak ++ indent ++ "-- ".toList ++
      ("@GUID ".toList ++ '{' :: guid.text) ++ ('}' :: " - ".toList ++ notice ++
        ending.terminator) := by
  have unbroken := newline_not_mem_line guid inserts.indented
  rw [inserts.shape, List.append_assoc lineBreak, LineEnding.apply_append,
    LineEnding.apply_append, ending.apply_of_not_mem unbroken, LineEnding.apply_cons, if_pos rfl]
  simp [LineEnding.apply, line_eq, token_eq]

/-- **Edits open no comment statement.** -/
theorem Edit.repels (edit : Edit guid plpgsql body before old new after) (ending : LineEnding) :
    Remark.Repels (ending.apply new) := by
  rcases edit.replaces_or_inserts with ⟨_, rfl⟩ | ⟨_, _, _, _, inserts⟩
  · rw [ending.apply_of_not_mem (newline_not_mem_token guid)]
    exact repels_token guid
  · rw [inserts.apply_eq]
    refine ⟨⟨_, "GUID ".toList ++ '{' :: guid.text ++ ('}' :: " - ".toList ++ notice ++
      ending.terminator), by simp, inserts.plain ending⟩, ?_⟩
    refine Remark.neverOpens_append _ ?_ rfl (by cases ending <;> decide)
    intro c member
    rcases List.mem_append.mp member with inLead | inToken
    · rcases inserts.plain ending c inLead with blank | rfl
      · exact isFormOf_of_isBlank blank (by decide)
      · decide
    · exact not_isFormOf_token guid c inToken

/-- **Another identifier in the place of the first.** The marker that an edit has left is the first
one of the edited body, and with another identifier in its place that is the body edited for the
other identifier, if the body had a marker already or mentions none. -/
theorem Edit.exists_firstMarker (edit : Edit guid plpgsql body before old new after)
    (settled : (splitExisting? body).isSome = true ∨ mentions body = false) (other : Guid) :
    ∃ renewed front rest, Edit other plpgsql body before old renewed after ∧
      FirstMarker (before ++ new ++ after) front (token guid) rest ∧
      front ++ token other ++ rest = before ++ renewed ++ after ∧
      ('\n' ∈ renewed → '\n' ∈ new) := by
  rcases edit.renew other with
    ⟨first, rfl⟩ | ⟨unmarked, rfl, lineBreak, indent, inserts, _, renewed⟩
  · exact ⟨token other, before, after, .replacement first, first.again guid, rfl,
      fun member => absurd member (newline_not_mem_token other)⟩
  · have split : body = before ++ after := by simpa using edit.split
    have silent : mentions body = false := by
      rcases settled with marked | silent
      · rw [splitExisting?_eq_none_iff.mpr unmarked] at marked
        cases marked
      · exact silent
    have sealed : ¬ LeavesOpen before := by
      intro leaves
      rw [split, leaves.mentions] at silent
      cases silent
    refine ⟨_, _, _, renewed, inserts.firstMarker (split ▸ unmarked) sealed, ?_,
      fun _ => by simp [inserts.shape]⟩
    simp [line_eq, trailer]

end

/-- **The last marker counts.** Marking a text with one identifier and then with another one gives
the text marked with the latter, provided that a dollar-quoted body of the normalised text has a
line that starts with a marker or mentions none at all, and that no comment statement opens between
the header and the end of that body. -/
theorem ensure_ensure_last (text first second : Text)
    (valid : (Guid.parse? second).isSome = true)
    (regular : ∀ definition tag body, Definition.ofText? text.normalize = some definition →
      definition.script.body = .dollar tag body →
      Remark.OpensNowhere text.normalize definition.script.before.length
        (definition.script.prologue ++ definition.script.body.written).length ∧
      ((splitExisting? body).isSome = true ∨ mentions body = false)) :
    ensure (ensure text first) second = ensure text second := by
  obtain ⟨other, named⟩ := Option.isSome_iff_exists.mp valid
  cases identified : Guid.parse? first with
  | none =>
      have unchanged : ensure text first = text := by rw [ensure, identified]
      rw [unchanged]
  | some guid =>
      cases placed : place? text guid with
      | none =>
          have unchanged : ensure text first = text := by
            rw [ensure_of_parse? identified, placed, Option.getD_none]
          rw [unchanged]
      | some marked =>
          obtain ⟨script, tag, body, before, old, new, after, parsed, dollar, edit, _⟩ :=
            place?_eq_some_iff.mp placed
          obtain ⟨quiet, settled⟩ := regular (.ofScript script) tag body
            (congrArg (Option.map Definition.ofScript) parsed) dollar
          obtain ⟨renewed, front, rest, renews, found, same, follows⟩ :=
            edit.exists_firstMarker settled other
          have repels := edit.repels .lf
          rw [LineEnding.apply_lf] at repels
          have again := Script.ofText?_edit parsed (dollar.trans (by rw [← edit.split])) quiet
            (edit.not_mem (by simp)) repels
          rw [← normalize_ensure identified parsed dollar edit] at again
          have bare := return_not_mem_splice parsed dollar
            (edit.return_not_mem (return_not_mem_body parsed dollar))
          rw [ensure_ensure_of_firstMarker identified named parsed dollar edit (by rw [again]; rfl)
            found, same, ensure_of_edit named parsed dollar renews,
            ensure_of_edit identified parsed dollar edit]
          refine LineEnding.apply_detect_apply _ bare fun broken => ?_
          simp only [Script.splice, List.mem_append] at broken ⊢
          grind

/-- The script `CREATE PROCEDURE p() LANGUAGE plpgsql AS $$ … $$;` with an empty block. -/
def emptyBlock : Script where
  before := []
  header := ⟨.procedure, "CREATE PROCEDURE ".toList⟩
  name := ['p']
  arguments := []
  leading := " LANGUAGE plpgsql AS ".toList
  body := .dollar ['$', '$'] "\nBEGIN\nEND\n".toList
  trailing := [';']
  remark := none
  after := []

/-- Marking a script twice is marking it with the last identifier. -/
theorem ensure_ensure_last_emptyBlock :
    let text := LineEnding.crlf.apply emptyBlock.text
    let first := "9968C379-A8C4-4D5A-9F23-4F79E7C3B5E9".toList
    let second := "\x7b11111111-2222-4333-8444-555555555555\x7d".toList
    ensure text first ≠ text ∧ ensure (ensure text first) second = ensure text second := by
  intro text first second
  have parsed : Definition.ofText? text.normalize = some (.ofScript emptyBlock) := by decide +kernel
  refine ⟨by decide +kernel, ensure_ensure_last text first second (by decide +kernel) ?_⟩
  intro definition tag body found dollar
  obtain rfl : Definition.ofScript emptyBlock = definition :=
    Option.some.inj (parsed.symm.trans found)
  cases dollar
  exact ⟨by decide +kernel, Or.inr (by decide +kernel)⟩

end Marker

end RoutineScripts
