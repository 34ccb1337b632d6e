import RoutineScripts.Marker.Placement
import RoutineScripts.Proofs.Lexical.Structure
import RoutineScripts.Proofs.Text.Recogniser
import RoutineScripts.Proofs.Text.Search

/-!
# Lines that markers depend on

Which lines of a body start with a marker (`Marker.MarksLine`) and which start with a top-level
`BEGIN` (`Marker.OpensBlock`) is said by the parts of the body around them. The two splits of a body
are at the first line of either kind (`Marker.splitExisting?_eq_some_iff`,
`Marker.splitBegin?_eq_some_iff`).
-/

namespace RoutineScripts

namespace Marker

open Recogniser Text

/-- Indentation, optionally followed by two dashes and more indentation. -/
def IsLead (start : Text) : Prop :=
  ∃ indent, (∀ c ∈ indent, isIndent c = true) ∧
    (start = indent ∨
      ∃ inner, start = indent ++ '-' :: '-' :: inner ∧ ∀ c ∈ inner, isIndent c = true)

/-- The word `@GUID`, white space and an opening brace. -/
def IsOpening (opening : Text) : Prop :=
  ∃ word gap, opening = word ++ gap ++ ['{'] ∧ Spells "@GUID".toList word ∧
    ∀ c ∈ gap, isBlank c = true

/-- A marker with any text between its braces. -/
def IsMarker (found : Text) : Prop :=
  ∃ opening inside, found = opening ++ inside ++ ['}'] ∧ IsOpening opening ∧ inside ≠ [] ∧
    '}' ∉ inside

/-- The at sign has no other form. -/
theorem eq_of_isFormOf_at {c : Char} (form : isFormOf '@' c = true) : c = '@' := by
  have upper : c.toUpper = '@' := by simpa [isFormOf] using form
  by_cases letter : 'a'.val ≤ c.val ∧ c.val ≤ 'z'.val
  · have letters : ∀ n < 26, (Char.ofNat (97 + n)).toUpper ≠ '@' := by decide
    have lower : 97 ≤ c.toNat := letter.1
    have bound : c.toNat ≤ 122 := letter.2
    obtain ⟨n, shape⟩ := Nat.exists_eq_add_of_le lower
    have differs := letters n (by omega)
    rw [← shape, Char.ofNat_toNat] at differs
    exact absurd upper differs
  · have kept : c.toUpper = c := dif_neg letter
    exact kept.symm.trans upper

theorem IsOpening.eq_cons {opening : Text} (isOpening : IsOpening opening) :
    ∃ tail, opening = '@' :: tail := by
  obtain ⟨word, gap, rfl, spells, _⟩ := isOpening
  cases word with
  | nil => cases spells
  | cons c word =>
      obtain rfl := eq_of_isFormOf_at spells.1
      exact ⟨word ++ gap ++ ['{'], rfl⟩

/-- A marker is accepted when the text starts with one. -/
theorem loose_eq_some_iff {text found after : Text} :
    loose text = some (found, after) ↔ text = found ++ after ∧ IsMarker found := by
  simp only [loose, Recogniser.sequence, List.foldr_cons, List.foldr_nil, andThen_eq_some_iff,
    keyword_eq_some_iff, run_eq_some_iff, char_eq_some_iff, run1_eq_some_iff, nothing,
    Option.some.injEq, Prod.mk.injEq]
  constructor
  · rintro ⟨word, afterWord, _, ⟨spells, rfl⟩, ⟨gap, afterGap, _, ⟨rfl, blank, _⟩, ⟨_, opened, _,
      ⟨rfl, rfl⟩, ⟨inside, closing, _, ⟨nonempty, rfl, within, _⟩, ⟨_, rest, _, ⟨rfl, rfl⟩,
      ⟨rfl, rfl⟩, rfl⟩, rfl⟩, rfl⟩, rfl⟩, rfl⟩
    refine ⟨by simp, word ++ gap ++ ['{'], inside, by simp, ⟨word, gap, rfl, spells, blank⟩,
      nonempty, fun member => ?_⟩
    simpa using within _ member
  · rintro ⟨rfl, _, inside, rfl, ⟨word, gap, rfl, spells, blank⟩, nonempty, absent⟩
    refine ⟨word, _, _, ⟨spells, by simp⟩, ⟨gap, _, _, ⟨rfl, blank, ?_⟩, ⟨_, _, _, ⟨rfl, rfl⟩,
      ⟨inside, _, _, ⟨nonempty, rfl, ?_, ?_⟩, ⟨_, _, _, ⟨rfl, rfl⟩, ⟨rfl, rfl⟩, rfl⟩, rfl⟩, rfl⟩,
      rfl⟩, by simp⟩
    · rfl
    · intro c member
      rw [bne_iff_ne]
      rintro rfl
      exact absent member
    · rfl

theorem IsMarker.eq_cons {found : Text} (isMarker : IsMarker found) :
    ∃ tail, found = '@' :: tail := by
  obtain ⟨_, inside, rfl, isOpening, _⟩ := isMarker
  obtain ⟨tail, rfl⟩ := isOpening.eq_cons
  exact ⟨tail ++ inside ++ ['}'], rfl⟩

/-- A lead is taken from the front of the text. -/
theorem isLead_of_lead {text start rest : Text} (found : lead text = some (start, rest)) :
    text = start ++ rest ∧ IsLead start := by
  simp only [lead, Recogniser.sequence, List.foldr_cons, List.foldr_nil, andThen_eq_some_iff,
    optional_eq_some_iff, run_eq_some_iff, char_eq_some_iff, nothing, Option.some.injEq,
    Prod.mk.injEq] at found
  obtain ⟨indent, middle, _, ⟨rfl, indented, _⟩, ⟨dashes, _, _, dashed, ⟨rfl, rfl⟩, rfl⟩, rfl⟩ :=
    found
  rcases dashed with ⟨_, _, _, ⟨rfl, rfl⟩, ⟨_, _, _, ⟨rfl, rfl⟩, ⟨inner, _, _, ⟨rfl, within, _⟩,
    ⟨rfl, rfl⟩, rfl⟩, rfl⟩, rfl⟩ | ⟨_, rfl, rfl⟩
  · exact ⟨by simp, indent, indented, Or.inr ⟨inner, by simp, within⟩⟩
  · exact ⟨by simp, indent, indented, Or.inl (by simp)⟩

/-- A lead is read in full in front of the first character of a marker. -/
theorem lead_append {start : Text} (isLead : IsLead start) (rest : Text) :
    lead (start ++ '@' :: rest) = some (start, '@' :: rest) := by
  simp only [lead, Recogniser.sequence, List.foldr_cons, List.foldr_nil, andThen_eq_some_iff,
    optional_eq_some_iff, run_eq_some_iff, char_eq_some_iff, nothing, Option.some.injEq,
    Prod.mk.injEq]
  obtain ⟨indent, indented, rfl | ⟨inner, rfl, within⟩⟩ := isLead
  · refine ⟨start, _, _, ⟨rfl, indented, rfl⟩, ⟨[], _, _, Or.inr ⟨?_, rfl, rfl⟩, ⟨rfl, rfl⟩, rfl⟩,
      by simp⟩
    rfl
  · exact ⟨indent, _, _, ⟨by simp, indented, rfl⟩, ⟨_, _, _, Or.inl ⟨_, _, _, ⟨rfl, rfl⟩,
      ⟨_, _, _, ⟨rfl, rfl⟩, ⟨inner, _, _, ⟨rfl, within, rfl⟩, ⟨rfl, rfl⟩, rfl⟩, rfl⟩, rfl⟩,
      ⟨rfl, rfl⟩, rfl⟩, by simp⟩

/-- A line of `body` starts with the marker `found`. -/
structure MarksLine (body passed start found after : Text) : Prop where
  split : body = passed ++ start ++ found ++ after
  startsLine : startsLine passed.getLast? = true
  isLead : IsLead start
  isMarker : IsMarker found

/-- The test by which markers are looked for. -/
def existingTest (previous : Option Char) (text : Text) : Option (Text × Text × Text) :=
  if startsLine previous then
    match lead text with
    | none => none
    | some (start, rest) => (loose rest).map fun (found, after) => (start, found, after)
  else
    none

/-- The marker to replace is found by a search. -/
theorem splitExisting?_eq (body : Text) :
    splitExisting? body =
      (search existingTest none body).map
        fun (passed, start, found, after) => (passed ++ start, found, after) :=
  rfl

/-- The test of that search accepts at the start of a line, after a lead, at a marker. -/
theorem existingTest_eq_some_iff {previous : Option Char} {text start found after : Text} :
    existingTest previous text = some (start, found, after) ↔
      startsLine previous = true ∧ text = start ++ found ++ after ∧ IsLead start ∧
        IsMarker found := by
  rw [existingTest]
  constructor
  · intro accepted
    split at accepted
    case isFalse => cases accepted
    case isTrue starts =>
      split at accepted
      case h_1 => cases accepted
      case h_2 lead rest led =>
        simp only [Option.map_eq_some_iff, Prod.exists, Prod.mk.injEq, loose_eq_some_iff]
          at accepted
        obtain ⟨marker, tail, ⟨rfl, isMarker⟩, rfl, rfl, rfl⟩ := accepted
        obtain ⟨rfl, isLead⟩ := isLead_of_lead led
        exact ⟨starts, (List.append_assoc ..).symm, isLead, isMarker⟩
  · rintro ⟨starts, rfl, isLead, isMarker⟩
    have read : loose (found ++ after) = some (found, after) :=
      loose_eq_some_iff.mpr ⟨rfl, isMarker⟩
    obtain ⟨tail, rfl⟩ := isMarker.eq_cons
    have led := lead_append isLead (tail ++ after)
    rw [if_pos starts, List.append_assoc, List.cons_append, led]
    simp only [← List.cons_append, read, Option.map_some]

/-- `found` is the marker at the start of the first line of `body` that starts with one. -/
def FirstMarker (body before found after : Text) : Prop :=
  ∃ passed start, before = passed ++ start ∧ MarksLine body passed start found after ∧
    ∀ otherPassed otherStart otherFound otherAfter,
      MarksLine body otherPassed otherStart otherFound otherAfter →
        passed.length ≤ otherPassed.length

/-- No line of `body` starts with a marker. -/
def Unmarked (body : Text) : Prop :=
  ∀ passed start found after, ¬ MarksLine body passed start found after

/-- **The marker of a body.** It is the one on the first line that starts with one. -/
theorem splitExisting?_eq_some_iff {body before found after : Text} :
    splitExisting? body = some (before, found, after) ↔ FirstMarker body before found after := by
  simp only [splitExisting?_eq, Option.map_eq_some_iff, Prod.exists, Prod.mk.injEq,
    search_eq_some_iff, existingTest_eq_some_iff, misses_iff, Option.or_none]
  constructor
  · rintro ⟨passed, start, _, _, ⟨_, rfl, refuses, starts, rfl, isLead, isMarker⟩, rfl, rfl, rfl⟩
    refine ⟨passed, start, rfl, ⟨by simp, starts, isLead, isMarker⟩, ?_⟩
    intro otherPassed otherStart otherFound otherAfter other
    apply Nat.le_of_not_lt
    intro earlier
    have refused := refuses otherPassed (otherStart ++ otherFound ++ otherAfter)
      (by rw [other.split]; simp) earlier
    rw [existingTest_eq_some_iff.mpr ⟨other.startsLine, rfl, other.isLead, other.isMarker⟩]
      at refused
    cases refused
  · rintro ⟨passed, start, rfl, marks, least⟩
    refine ⟨passed, start, found, after, ⟨start ++ found ++ after, by simp [marks.split], ?_,
      marks.startsLine, rfl, marks.isLead, marks.isMarker⟩, rfl, rfl, rfl⟩
    intro otherPassed rest split earlier
    cases accepted : existingTest otherPassed.getLast? rest with
    | none => rfl
    | some parts =>
        obtain ⟨otherStart, otherFound, otherAfter⟩ := parts
        obtain ⟨starts, rfl, isLead, isMarker⟩ := existingTest_eq_some_iff.mp accepted
        have later := least otherPassed otherStart otherFound otherAfter
          ⟨by rw [marks.split]; simpa using split, starts, isLead, isMarker⟩
        omega

/-- No marker is found in a body exactly when no line of it starts with one. -/
theorem splitExisting?_eq_none_iff {body : Text} : splitExisting? body = none ↔ Unmarked body := by
  rw [splitExisting?_eq, Option.map_eq_none_iff, search_eq_none_iff_forall]
  constructor
  · intro refuses passed start found after marks
    have refused := refuses passed (start ++ found ++ after) (by rw [marks.split]; simp)
    rw [Option.or_none, existingTest_eq_some_iff.mpr
      ⟨marks.startsLine, rfl, marks.isLead, marks.isMarker⟩] at refused
    cases refused
  · intro unmarked passed rest split
    cases accepted : existingTest (passed.getLast?.or none) rest with
    | none => rfl
    | some parts =>
        obtain ⟨start, found, after⟩ := parts
        rw [Option.or_none] at accepted
        obtain ⟨starts, rfl, isLead, isMarker⟩ := existingTest_eq_some_iff.mp accepted
        exact absurd ⟨by rw [split]; simp, starts, isLead, isMarker⟩
          (unmarked passed start found after)

/-- A line of `body` starts with the word `BEGIN` at top level. -/
structure OpensBlock (body passed indent word after : Text) : Prop where
  split : body = passed ++ indent ++ word ++ after
  startsLine : startsLine passed.getLast? = true
  indented : ∀ c ∈ indent, isIndent c = true
  spells : Spells "BEGIN".toList word
  endsWord : endsWord after = true
  topLevel : body.scan[(passed ++ indent).length]?.any Glyph.isTopLevel = true

/-- The test by which the line of a `BEGIN` is looked for. -/
def beginTest (previous : Option Glyph) (glyphs : List Glyph) :
    Option (List Glyph × List Glyph) :=
  if startsLine (previous.map Glyph.char) then
    let indent := glyphs.takeWhile fun glyph => isIndent glyph.char
    let rest := glyphs.dropWhile fun glyph => isIndent glyph.char
    if beginsBlock rest then some (indent ++ rest.take 5, rest.drop 5) else none
  else
    none

/-- The first block is found by a search through the glyphs. -/
theorem splitBegin?_eq (body : Text) :
    splitBegin? body =
      (search beginTest none body.scan).map
        fun (passed, start, after) => (ofGlyphs (passed ++ start), ofGlyphs after) :=
  rfl

/-- One glyph tells whether a word ends. -/
theorem endsWord_ofGlyphs_take (glyphs : List Glyph) :
    endsWord (ofGlyphs (glyphs.take 1)) = endsWord (ofGlyphs glyphs) := by
  cases glyphs <;> rfl

/-- A block begins at a word `BEGIN` that starts at top level. -/
theorem beginsBlock_iff {glyphs : List Glyph} :
    beginsBlock glyphs = true ↔
      glyphs.head?.any Glyph.isTopLevel = true ∧
        Spells "BEGIN".toList (ofGlyphs (glyphs.take 5)) ∧
        endsWord (ofGlyphs (glyphs.drop 5)) = true := by
  have cut : ofGlyphs (glyphs.take 6) =
      ofGlyphs (glyphs.take 5) ++ ofGlyphs ((glyphs.drop 5).take 1) := by
    rw [← ofGlyphs_append, ← List.take_add]
  rw [beginsBlock, Bool.and_eq_true]
  refine and_congr_right fun _ => ?_
  constructor
  · intro found
    split at found
    case h_2 => cases found
    case h_1 word after read =>
      obtain ⟨spells, whole⟩ := keyword_eq_some_iff.mp read
      have size : word.length = 5 := spells.length_eq
      have long : (ofGlyphs (glyphs.take 5)).length = 5 := by
        have sizes := congrArg List.length whole
        simp only [ofGlyphs, List.length_map, List.length_take, List.length_append] at sizes ⊢
        omega
      rw [cut] at whole
      obtain ⟨rfl, rfl⟩ := List.append_inj whole (long.trans size.symm)
      rw [endsWord_ofGlyphs_take] at found
      exact ⟨spells, found⟩
  · rintro ⟨spells, ends⟩
    have read : Recogniser.keyword "BEGIN" (ofGlyphs (glyphs.take 6)) =
        some (ofGlyphs (glyphs.take 5), ofGlyphs ((glyphs.drop 5).take 1)) :=
      keyword_eq_some_iff.mpr ⟨spells, cut⟩
    rw [read]
    simp only [endsWord_ofGlyphs_take, ends]

/-- The test of that search accepts at the start of a line, after its indentation, at such a word.
-/
theorem beginTest_eq_some_iff {previous : Option Glyph} {glyphs start after : List Glyph} :
    beginTest previous glyphs = some (start, after) ↔
      startsLine (previous.map Glyph.char) = true ∧
        ∃ indent word, glyphs = indent ++ word ++ after ∧ start = indent ++ word ∧
          (∀ glyph ∈ indent, isIndent glyph.char = true) ∧
          word.head?.any Glyph.isTopLevel = true ∧ Spells "BEGIN".toList (ofGlyphs word) ∧
          endsWord (ofGlyphs after) = true := by
  rw [beginTest]
  constructor
  · intro accepted
    split at accepted
    case isFalse => cases accepted
    case isTrue starts =>
      simp only at accepted
      split at accepted
      case isFalse => cases accepted
      case isTrue begins =>
        obtain ⟨rfl, rfl⟩ := Prod.mk.inj (Option.some.inj accepted)
        obtain ⟨topLevel, spells, ends⟩ := beginsBlock_iff.mp begins
        refine ⟨starts, glyphs.takeWhile fun glyph => isIndent glyph.char,
          (glyphs.dropWhile fun glyph => isIndent glyph.char).take 5, ?_, rfl,
          List.all_eq_true.mp List.all_takeWhile, ?_, spells, ends⟩
        · rw [List.append_assoc, List.take_append_drop, List.takeWhile_append_dropWhile]
        · rw [List.head?_take]
          simpa using topLevel
  · rintro ⟨starts, indent, word, rfl, rfl, indented, topLevel, spells, ends⟩
    have size : word.length = 5 := by
      have letters := spells.length_eq
      simpa [ofGlyphs] using letters
    obtain ⟨first, letters, rfl⟩ : ∃ first letters, word = first :: letters := by
      cases word with
      | nil => cases spells
      | cons first letters => exact ⟨first, letters, rfl⟩
    have visible : ¬ isIndent first.char = true := by
      intro blank
      have form : isFormOf 'B' first.char = true := spells.1
      rcases (Bool.or_eq_true_iff.mp blank) with space | tab
      · rw [beq_iff_eq.mp space] at form
        exact absurd form (by decide)
      · rw [beq_iff_eq.mp tab] at form
        exact absurd form (by decide)
    have begins : beginsBlock (first :: letters ++ after) = true := by
      rw [beginsBlock_iff, List.take_left' size, List.drop_left' size]
      exact ⟨topLevel, spells, ends⟩
    have taken :
        (first :: (letters ++ after)).takeWhile (fun glyph => isIndent glyph.char) = [] := by
      rw [List.takeWhile_cons, if_neg visible]
    have dropped : (first :: (letters ++ after)).dropWhile (fun glyph => isIndent glyph.char) =
        first :: letters ++ after := by
      rw [List.dropWhile_cons, if_neg visible, List.cons_append]
    rw [if_pos starts, List.append_assoc, List.takeWhile_append_of_pos indented,
      List.dropWhile_append_of_pos indented, List.cons_append, taken, dropped, List.append_nil]
    simp only [begins, if_true, List.take_left' size, List.drop_left' size]

/-- `opening` ends in the `BEGIN` of the first line of `body` that starts with one at top level. -/
def FirstBlock (body opening after : Text) : Prop :=
  ∃ passed indent word, opening = passed ++ indent ++ word ∧
    OpensBlock body passed indent word after ∧
    ∀ otherPassed otherIndent otherWord otherAfter,
      OpensBlock body otherPassed otherIndent otherWord otherAfter →
        passed.length ≤ otherPassed.length

/-- What the test accepts at a place is a line that starts with `BEGIN`. -/
theorem opensBlock_iff {body : Text} {passed indent word after : List Glyph}
    (split : body.scan = passed ++ indent ++ word ++ after) :
    OpensBlock body (ofGlyphs passed) (ofGlyphs indent) (ofGlyphs word) (ofGlyphs after) ↔
      startsLine (passed.getLast?.map Glyph.char) = true ∧
        (∀ glyph ∈ indent, isIndent glyph.char = true) ∧
        word.head?.any Glyph.isTopLevel = true ∧ Spells "BEGIN".toList (ofGlyphs word) ∧
        endsWord (ofGlyphs after) = true := by
  have last : (ofGlyphs passed).getLast? = passed.getLast?.map Glyph.char := List.getLast?_map
  have place (nonempty : word ≠ []) :
      body.scan[(ofGlyphs passed ++ ofGlyphs indent).length]? = word.head? := by
    obtain ⟨first, letters, rfl⟩ := List.exists_cons_of_ne_nil nonempty
    have size : (ofGlyphs passed ++ ofGlyphs indent).length = (passed ++ indent).length := by
      simp [ofGlyphs]
    rw [split, List.append_assoc, size, List.getElem?_append_right (Nat.le_refl _), Nat.sub_self]
    rfl
  constructor
  · rintro ⟨_, starts, indented, spells, ends, topLevel⟩
    have nonempty : word ≠ [] := by
      rintro rfl
      cases spells
    rw [place nonempty] at topLevel
    refine ⟨last ▸ starts, fun glyph member => ?_, topLevel, spells, ends⟩
    exact indented glyph.char (List.mem_map_of_mem member)
  · rintro ⟨starts, indented, topLevel, spells, ends⟩
    have nonempty : word ≠ [] := by
      rintro rfl
      cases spells
    refine ⟨?_, last ▸ starts, ?_, spells, ends, by rw [place nonempty]; exact topLevel⟩
    · rw [← ofGlyphs_scan body, split]
      simp only [ofGlyphs_append]
    · intro c member
      obtain ⟨glyph, inside, rfl⟩ := List.mem_map.mp member
      exact indented glyph inside

/-- The parts of a line that starts with `BEGIN` are parts of the scan. -/
theorem OpensBlock.exists_glyphs {body passed indent word after : Text}
    (block : OpensBlock body passed indent word after) :
    ∃ passedGlyphs startGlyphs afterGlyphs,
      body.scan = passedGlyphs ++ (startGlyphs ++ afterGlyphs) ∧
      ofGlyphs passedGlyphs = passed ∧ ofGlyphs startGlyphs = indent ++ word ∧
      ofGlyphs afterGlyphs = after ∧
      beginTest passedGlyphs.getLast? (startGlyphs ++ afterGlyphs) =
        some (startGlyphs, afterGlyphs) := by
  have whole : ofGlyphs body.scan = passed ++ (indent ++ (word ++ after)) := by
    rw [ofGlyphs_scan, block.split]
    simp
  obtain ⟨passedGlyphs, rest, scanned, rfl, others⟩ := List.map_eq_append_iff.mp whole
  obtain ⟨indentGlyphs, rest, rfl, rfl, worded⟩ := List.map_eq_append_iff.mp others
  obtain ⟨wordGlyphs, afterGlyphs, rfl, rfl, rfl⟩ := List.map_eq_append_iff.mp worded
  have split : body.scan = passedGlyphs ++ indentGlyphs ++ wordGlyphs ++ afterGlyphs := by
    rw [scanned]
    simp
  obtain ⟨starts, indented, topLevel, spells, ends⟩ := (opensBlock_iff split).mp block
  refine ⟨passedGlyphs, indentGlyphs ++ wordGlyphs, afterGlyphs, by rw [scanned]; simp, rfl,
    ofGlyphs_append .., rfl, ?_⟩
  exact beginTest_eq_some_iff.mpr
    ⟨starts, indentGlyphs, wordGlyphs, rfl, rfl, indented, topLevel, spells, ends⟩

/-- A block that the test accepts is one of the body. -/
theorem exists_opensBlock {body : Text} {passed rest start after : List Glyph}
    (split : body.scan = passed ++ rest)
    (accepted : beginTest passed.getLast? rest = some (start, after)) :
    ∃ indent word, ofGlyphs start = indent ++ word ∧
      OpensBlock body (ofGlyphs passed) indent word (ofGlyphs after) := by
  obtain ⟨starts, indent, word, rfl, rfl, others⟩ := beginTest_eq_some_iff.mp accepted
  refine ⟨ofGlyphs indent, ofGlyphs word, ofGlyphs_append .., ?_⟩
  exact (opensBlock_iff (by rw [split]; simp)).mpr ⟨starts, others⟩

/-- **The block of a body.** It is opened on the first line that starts with `BEGIN` at top
level. -/
theorem splitBegin?_eq_some_iff {body opening after : Text} :
    splitBegin? body = some (opening, after) ↔ FirstBlock body opening after := by
  simp only [splitBegin?_eq, Option.map_eq_some_iff, Prod.exists, Prod.mk.injEq,
    search_eq_some_iff, misses_iff, Option.or_none]
  constructor
  · rintro ⟨passed, start, tail, ⟨rest, split, refuses, accepted⟩, rfl, rfl⟩
    obtain ⟨indent, word, started, block⟩ := exists_opensBlock split accepted
    refine ⟨ofGlyphs passed, indent, word, by rw [ofGlyphs_append, started, List.append_assoc],
      block, ?_⟩
    intro otherPassed otherIndent otherWord otherAfter other
    apply Nat.le_of_not_lt
    intro earlier
    obtain ⟨glyphs, starts, others, scanned, rfl, _, _, acceptedToo⟩ := other.exists_glyphs
    have refused := refuses glyphs (starts ++ others) (by rw [← split, scanned])
      (by simpa [ofGlyphs] using earlier)
    rw [refused] at acceptedToo
    cases acceptedToo
  · rintro ⟨passed, indent, word, rfl, block, least⟩
    obtain ⟨glyphs, starts, others, scanned, rfl, started, rfl, accepted⟩ := block.exists_glyphs
    refine ⟨glyphs, starts, others, ⟨starts ++ others, scanned, ?_, accepted⟩,
      by rw [ofGlyphs_append, started, List.append_assoc], rfl⟩
    intro otherPassed rest split earlier
    cases acceptedToo : beginTest otherPassed.getLast? rest with
    | none => rfl
    | some parts =>
        obtain ⟨_, _, _, other⟩ := exists_opensBlock (scanned.trans split) acceptedToo
        have later := least _ _ _ _ other
        simp only [ofGlyphs, List.length_map] at later
        omega

end Marker

end RoutineScripts
