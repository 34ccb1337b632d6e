import RoutineScripts.Proofs.Lexical.Balance
import RoutineScripts.Proofs.Lexical.Normalization
import RoutineScripts.Proofs.Lexical.Refinement
import RoutineScripts.Proofs.Marker.Overwrite

/-!
# Inserted markers as comments

A marker line is inserted at the start of a line. The scan of the body comes to that place in the
same state whatever follows there (`ScanState.after_lineStart`), so what is above the marker keeps
its glyphs. In plain text the two dashes open a comment that the end of the line closes, and in a
block comment the line closes nothing (`ScanState.exists_after_line`): either way what is below
keeps its glyphs too. In a literal or a quoted name the dashes are no comment, and the apostrophe of
the notice may even close the literal. So an inserted marker adds a comment and nothing else if and
only if the text above it ends in plain text or in a comment (`Marker.addsComment_iff`).
-/

namespace RoutineScripts

/-- The marker line holds no star and no line break. -/
theorem Marker.not_mem_line (guid : Guid) {z : Char} (member : z ∈ ['*', '\n', '\r']) :
    z ∉ line guid := by
  have outside : z ∉ "-- @GUID ".toList ∧ z ≠ '{' ∧ z ≠ '}' ∧ z ∉ " - ".toList ∧ z ∉ notice ∧
      z ∉ Guid.alphabet := by
    simp only [List.mem_cons, List.not_mem_nil, or_false] at member
    rcases member with rfl | rfl | rfl <;> decide
  have shape : line guid =
      "-- @GUID ".toList ++ '{' :: (guid.text ++ '}' :: (" - ".toList ++ notice)) := by
    simp [line_eq, token_eq]
  rw [shape]
  simp only [List.mem_append, List.mem_cons, not_or]
  exact ⟨outside.1, outside.2.1,
    fun inText => outside.2.2.2.2.2 (guid.mem_alphabet_of_mem inText),
    outside.2.2.1, outside.2.2.2.1, outside.2.2.2.2.1⟩

namespace Mode

/-- Indentation belongs to no delimiter. -/
theorem advance_indent {mode : Mode} (proper : mode.Proper) {c : Char} (indent : isIndent c = true)
    (rest : Text) : mode.advance c rest = ⟨mode, 0⟩ := by
  have outside : c ∉ ['-', '/', '$', '\'', '"', '*', '\n', '\r'] := by
    intro member
    simp only [List.mem_cons, List.not_mem_nil, or_false] at member
    rcases member with rfl | rfl | rfl | rfl | rfl | rfl | rfl | rfl <;> revert indent <;> decide
  simp only [List.mem_cons, List.not_mem_nil, or_false, not_or] at outside
  cases mode with
  | dollarQuoted tag =>
      have goesOn : ¬ tag.isPrefixOf (c :: rest) = true := by
        obtain ⟨name, rfl, _⟩ := proper
        simp [Ne.symm outside.2.2.1]
      rw [advance, if_neg goesOn]
  | _ => simp [advance, dollarTag?_cons, outside]

/-- A line break outside literals leaves plain text or a block comment. -/
theorem afterBreak_outside {mode : Mode} (outside : mode = .normal ∨ mode.isComment = true) :
    mode.afterBreak = .normal ∨ mode.afterBreak = .blockComment := by
  revert outside
  cases mode <;> simp [afterBreak, isComment]

end Mode

namespace ScanState

/-- The scan of what follows a front starts in the state after it. -/
theorem drop_scan (state : ScanState) (front back : Text) :
    (state.scan (front ++ back)).drop front.length = (state.after front back).scan back := by
  rw [scan_append, List.drop_left' (length_glyphs ..)]

/-- The scan of a front is its glyphs before what follows. -/
theorem take_scan (state : ScanState) (front back : Text) :
    (state.scan (front ++ back)).take front.length = state.glyphs front back := by
  rw [scan_append, List.take_left' (length_glyphs ..)]

/-- A line break is read in the mode that the text before it ends in, whatever comes later. -/
theorem after_newline (front back : Text) :
    start.after (front ++ ['\n']) back = ⟨front.endMode, front.endMode.afterBreak, 0⟩ ∧
      start.glyphs (front ++ ['\n']) back = start.glyphs (front ++ ['\n']) [] := by
  have proper : start.mode.Proper := trivial
  have reached (back : Text) := after_append_detached proper detached_newline front back
  have closed : (start.after front []).pending = 0 := pending_after (Nat.zero_le _)
  have further := proper_after proper front []
  have step (back : Text) : (start.after front []).mode.advance '\n' back =
      ⟨(start.after front []).mode.afterBreak, 0⟩ := Mode.advance_break further rfl back
  rw [Text.endMode_eq, after_append, glyphs_append, glyphs_append]
  simp only [List.singleton_append, reached, after, glyphs, next, glyph, closed, List.nil_append,
    step, and_self, Nat.zero_sub]

/-- **Line starts.** What follows the start of a line has no part in how the text above is
scanned, and no delimiter is cut there. -/
theorem after_lineStart {above : Text} (starts : Marker.startsLine above.getLast? = true)
    (below : Text) :
    (∃ before, start.after above below = ⟨before, above.endMode, 0⟩) ∧
      start.glyphs above below = start.glyphs above [] ∧
      above.endMode.afterBreak = above.endMode := by
  rcases List.eq_nil_or_concat above with rfl | ⟨front, c, rfl⟩
  · exact ⟨⟨.normal, rfl⟩, rfl, rfl⟩
  · obtain rfl : c = '\n' := by simpa [Marker.startsLine] using starts
    obtain ⟨reached, read⟩ := after_newline front below
    have ends : Text.endMode (front ++ ['\n']) = (Text.endMode front).afterBreak := by
      rw [Text.endMode_eq, (after_newline front []).1]
    rw [List.concat_eq_append, ends, Mode.afterBreak_afterBreak]
    exact ⟨⟨_, reached⟩, read, rfl⟩

/-- **Marker lines are closed.** A marker line leaves plain text plain, and a block comment open. -/
theorem exists_after_line {mode : Mode} (outside : mode = .normal ∨ mode = .blockComment)
    {indent : Text} (indented : ∀ c ∈ indent, isIndent c = true) (guid : Guid) (before : Mode)
    (below : Text) :
    ∃ last, after ⟨before, mode, 0⟩ (indent ++ Marker.line guid ++ ['\n']) below =
      ⟨last, mode, 0⟩ := by
  have absent {z : Char} (member : z ∈ ['*', '\n', '\r']) := Marker.not_mem_line guid member
  rcases outside with rfl | rfl
  · obtain ⟨words, shape⟩ : ∃ words, Marker.line guid = '-' :: '-' :: words := ⟨_, rfl⟩
    have text : indent ++ Marker.line guid ++ ['\n'] =
        indent ++ (['-', '-'] ++ (words ++ ['\n'])) := by simp [shape]
    have stays (front : Text) (c : Char) (tail : Text) (split : indent = front ++ c :: tail) :
        Mode.normal.advance c (tail ++ (['-', '-'] ++ (words ++ ['\n']) ++ below)) =
          ⟨.normal, 0⟩ :=
      Mode.advance_indent (show Mode.normal.Proper from trivial) (indented c (by simp [split])) _
    have goesOn (front : Text) (c : Char) (tail : Text) (split : words = front ++ c :: tail) :
        Mode.lineComment.advance c (tail ++ (['\n'] ++ below)) = ⟨.lineComment, 0⟩ := by
      have inside : c ∈ Marker.line guid := by simp [shape, split]
      have differs : c ≠ '\n' ∧ c ≠ '\r' := by
        constructor <;> rintro rfl <;> exact absent (by simp) inside
      simp [Mode.advance, differs]
    obtain ⟨first, indents⟩ := (inside_of_stays stays before).1
    have opens : after ⟨first, .normal, 0⟩ ['-', '-'] (words ++ ['\n'] ++ below) =
        ⟨.normal, .lineComment, 0⟩ := (after_of_advance first (by simp [Mode.advance])).1
    obtain ⟨last, within⟩ := (inside_of_stays goesOn .normal).1
    refine ⟨.lineComment, ?_⟩
    rw [text, after_append, indents, after_append, opens, after_append, within]
    simp [after, next, Mode.advance]
  · refine (inside_of_stays (fun front c tail split => ?_) before).1
    have inside : c ∈ indent ++ Marker.line guid ++ ['\n'] := by simp [split]
    have differs : c ≠ '*' := by
      rintro rfl
      simp only [List.mem_append, List.mem_singleton] at inside
      rcases inside with (inIndent | inLine) | isFeed
      · exact absurd (indented _ inIndent) (by decide)
      · exact absent (by simp) inLine
      · exact absurd isFeed (by decide)
    simp [Mode.advance, differs]

/-- The first dash of a text stands in the mode that what comes before it leads to. -/
theorem find?_dash (state : ScanState) {lead : Text} (plain : '-' ∉ lead) (rest : Text) :
    (state.scan (lead ++ '-' :: rest)).find? (·.char == '-') =
      some ((state.after lead ('-' :: rest)).glyph '-' rest) := by
  have none : (state.glyphs lead ('-' :: rest)).find? (·.char == '-') = none := by
    rw [List.find?_eq_none]
    intro glyph member dash
    have inside : glyph.char ∈ Text.ofGlyphs (state.glyphs lead ('-' :: rest)) :=
      List.mem_map_of_mem member
    rw [ofGlyphs_glyphs, beq_iff_eq.mp dash] at inside
    exact plain inside
  rw [scan_append, List.find?_append, none, Option.none_or, scan_cons,
    List.find?_cons_of_pos (by simp)]

end ScanState

/-- **Added comments.** With `new` between two parts of a text, every character of these parts keeps
its glyph, and the first dash of `new` stands in plain text or in a comment. -/
structure Text.AddsComment (before new after : Text) : Prop where
  above : (scan (before ++ new ++ after)).take before.length =
    (scan (before ++ after)).take before.length
  below : (scan (before ++ new ++ after)).drop (before ++ new).length =
    (scan (before ++ after)).drop before.length
  inside : ∃ dash, ((scan (before ++ new ++ after)).drop before.length).find? (·.char == '-') =
    some dash ∧ (dash.before = .normal ∨ dash.before.isComment = true)

namespace Marker

open Text

section

variable {guid : Guid} {before new after lineBreak indent : Text}

/-- The scan comes to an inserted line in the mode that the text above it ends in, less a line
comment. -/
theorem Inserts.after_lineBreak (inserts : Inserts guid before new lineBreak indent)
    (below : Text) :
    ∃ last, ScanState.start.after (before ++ lineBreak) below =
      ⟨last, before.endMode.afterBreak, 0⟩ := by
  rcases inserts.breaks with rfl | rfl
  · have starts := inserts.startsLine
    rw [List.append_nil] at starts ⊢
    obtain ⟨reached, _, settled⟩ := ScanState.after_lineStart starts below
    rwa [settled]
  · exact ⟨_, (ScanState.after_newline before below).1⟩

/-- The first dash of an inserted line stands in the mode after the line break before it. -/
theorem Inserts.exists_dash (inserts : Inserts guid before new lineBreak indent) (after : Text) :
    ∃ dash, ((scan (before ++ new ++ after)).drop before.length).find? (·.char == '-') =
      some dash ∧ dash.before = before.endMode.afterBreak := by
  obtain ⟨words, shape⟩ : ∃ words, new ++ after = lineBreak ++ indent ++ '-' :: words :=
    ⟨_, by rw [inserts.shape, line_eq]; simp; rfl⟩
  have plain : '-' ∉ lineBreak ++ indent := by
    rw [List.mem_append, not_or]
    exact ⟨inserts.not_mem_lineBreak (by decide), fun member =>
      absurd (inserts.indented _ member) (by decide)⟩
  have proper : before.endMode.afterBreak.Proper := by
    rw [endMode_eq]
    exact Mode.proper_afterBreak
      (ScanState.proper_after (show ScanState.start.mode.Proper from trivial) before [])
  obtain ⟨first, reached⟩ := inserts.after_lineBreak (indent ++ '-' :: words)
  have stays (front : Text) (c : Char) (tail : Text) (split : indent = front ++ c :: tail) :
      before.endMode.afterBreak.advance c (tail ++ '-' :: words) = ⟨before.endMode.afterBreak, 0⟩ :=
    Mode.advance_indent proper (inserts.indented c (by simp [split])) _
  obtain ⟨last, indents⟩ := (ScanState.inside_of_stays stays first).1
  have arrives : (ScanState.start.after before (new ++ after)).after (lineBreak ++ indent)
      ('-' :: words) = ⟨last, before.endMode.afterBreak, 0⟩ := by
    rw [shape, ← ScanState.after_append, ← List.append_assoc, ScanState.after_append, reached,
      indents]
  have found := (ScanState.start.after before (new ++ after)).find?_dash plain words
  rw [← shape, ← ScanState.drop_scan, arrives, ← List.append_assoc] at found
  exact ⟨_, found, rfl⟩

/-- An inserted line does not change the glyphs above it. -/
theorem Inserts.glyphs_above (inserts : Inserts guid before new lineBreak indent)
    (last : lineBreak = [] ∨ after = []) :
    glyphs before (new ++ after) = glyphs before after := by
  rcases inserts.breaks with rfl | rfl
  · have starts := inserts.startsLine
    rw [List.append_nil] at starts
    exact (ScanState.after_lineStart starts _).2.1.trans
      (ScanState.after_lineStart starts after).2.1.symm
  · obtain rfl := last.resolve_left (List.cons_ne_nil _ _)
    rw [inserts.shape]
    exact (ScanState.after_append_detached (show ScanState.start.mode.Proper from trivial)
      detached_newline before _).2

/-- An inserted line outside literals does not change the scan below it. -/
theorem Inserts.scan_below (inserts : Inserts guid before new lineBreak indent)
    (last : lineBreak = [] ∨ after = [])
    (outside : before.endMode = .normal ∨ before.endMode.isComment = true) :
    (ScanState.start.after (before ++ new) after).scan after =
      (ScanState.start.after before after).scan after := by
  rcases last with rfl | rfl
  · obtain ⟨first, reached⟩ := inserts.after_lineBreak (new ++ after)
    obtain ⟨other, reachedToo⟩ := inserts.after_lineBreak after
    obtain ⟨ends, closed⟩ := ScanState.exists_after_line (Mode.afterBreak_outside outside)
      inserts.indented guid first after
    rw [List.append_nil] at reached reachedToo
    rw [ScanState.after_append, reached, reachedToo, inserts.shape, List.nil_append, closed]
    exact ScanState.scan_of_mode ..
  · rw [ScanState.scan_nil, ScanState.scan_nil]

/-- **Inserted lines.** A marker line adds a comment and nothing else where the text above it ends
in plain text or in a comment, and nowhere else. -/
theorem Inserts.addsComment_iff (inserts : Inserts guid before new lineBreak indent)
    (last : lineBreak = [] ∨ after = []) :
    AddsComment before new after ↔
      before.endMode = .normal ∨ before.endMode.isComment = true := by
  obtain ⟨dash, found, stands⟩ := inserts.exists_dash after
  constructor
  · rintro ⟨_, _, other, foundToo, outside⟩
    obtain rfl : dash = other := Option.some.inj (found.symm.trans foundToo)
    rw [stands] at outside
    revert outside
    cases before.endMode <;> simp [Mode.afterBreak, Mode.isComment]
  · intro outside
    refine ⟨?_, ?_, dash, found, ?_⟩
    · rw [List.append_assoc]
      exact (ScanState.start.take_scan before (new ++ after)).trans
        ((inserts.glyphs_above last).trans (ScanState.start.take_scan before after).symm)
    · exact (ScanState.start.drop_scan (before ++ new) after).trans
        ((inserts.scan_below last outside).trans (ScanState.start.drop_scan before after).symm)
    · rw [stands]
      exact (Mode.afterBreak_outside outside).imp_right fun block => by rw [block]; rfl

end

/-- **Markers as comments.** Where a marker line is inserted into the dollar-quoted body of a
script, it adds a comment and leaves the code as it is, if and only if the body up to it ends in
plain text or in a comment. -/
theorem addsComment_ensure_iff {text id tag body before old new after : Text} {guid : Guid}
    {script : Script} (identified : Guid.parse? id = some guid)
    (parsed : Script.ofText? text.normalize = some script) (dollar : script.body = .dollar tag body)
    (unmarked : splitExisting? body = none)
    (edit : Edit guid (declaresPlpgsql text) body before old new after) :
    body = before ++ after ∧
      (ensure text id).normalize = script.splice (tag ++ (before ++ new ++ after) ++ tag) ∧
      (AddsComment before new after ↔
        before.endMode = .normal ∨ before.endMode.isComment = true) := by
  rcases edit.renew guid with ⟨first, _⟩ | ⟨_, rfl, lineBreak, indent, inserts, last, _⟩
  · rw [splitExisting?_eq_some_iff.mpr first] at unmarked
    cases unmarked
  · exact ⟨by simpa using edit.split, normalize_ensure identified parsed dollar edit,
      inserts.addsComment_iff last⟩

/-- A script whose body opens a comment on the line of its `BEGIN`. -/
def annotated : Script where
  before := []
  header := ⟨.procedure, "CREATE PROCEDURE ".toList⟩
  name := ['p']
  arguments := []
  leading := " LANGUAGE plpgsql AS ".toList
  body := .dollar ['$', '$'] "\nBEGIN /* it's\n  quoted */ RETURN;\nEND\n".toList
  trailing := [';']
  remark := none
  after := []

/-- A marker line that is put into a block comment adds nothing but the comment. -/
theorem addsComment_ensure_iff_annotated :
    let before := "\nBEGIN /* it's\n".toList
    let after := "  quoted */ RETURN;\nEND\n".toList
    ∃ new, Text.normalize (ensure annotated.text "9968C379-A8C4-4D5A-9F23-4F79E7C3B5E9".toList) =
        annotated.splice ("$$".toList ++ (before ++ new ++ after) ++ "$$".toList) ∧
      AddsComment before new after := by
  intro before after
  obtain ⟨guid, identified⟩ : ∃ guid,
      Guid.parse? "9968C379-A8C4-4D5A-9F23-4F79E7C3B5E9".toList = some guid :=
    Option.isSome_iff_exists.mp (by decide +kernel)
  have parsed : Script.ofText? (Text.normalize annotated.text) = some annotated := by
    decide +kernel
  have absent : splitExisting? (before ++ after) = none := by decide +kernel
  have block : splitBegin? (before ++ after) =
      some ("\nBEGIN".toList, " /* it's".toList ++ '\n' :: after) := by decide +kernel
  have edit : Edit guid (declaresPlpgsql annotated.text) (before ++ after) before []
      (after.takeWhile isIndent ++ line guid ++ ['\n']) after :=
    .belowBegin (splitExisting?_eq_none_iff.mp absent) (by decide +kernel)
      (splitBegin?_eq_some_iff.mp block) (by decide)
  obtain ⟨_, marked, adds⟩ := addsComment_ensure_iff identified parsed rfl absent edit
  exact ⟨_, marked, adds.mpr (Or.inr (by decide +kernel))⟩

/-- **A literal over two lines.** The marker line is put inside the literal, and the apostrophe of
its notice closes it: the body has other code than before. -/
theorem not_addsComment_of_open_literal :
    let id := "9968C379-A8C4-4D5A-9F23-4F79E7C3B5E9".toList
    let before := "SELECT 'a\n".toList
    let after := "b';".toList
    let new := "-- @GUID \x7b9968C379-A8C4-4D5A-9F23-4F79E7C3B5E9\x7d - ".toList ++ notice ++ ['\n']
    ensure ("CREATE FUNCTION f() AS $$".toList ++ (before ++ after) ++ "$$;".toList) id =
        "CREATE FUNCTION f() AS $$".toList ++ (before ++ new ++ after) ++ "$$;".toList ∧
      ¬ AddsComment before new after := by
  intro id before after new
  refine ⟨by decide +kernel, fun adds => ?_⟩
  have differs : (scan (before ++ new ++ after)).drop (before ++ new).length ≠
      (scan (before ++ after)).drop before.length := by decide +kernel
  exact differs adds.below

end Marker

end RoutineScripts
