import RoutineScripts.Proofs.Bytes.Definition
import RoutineScripts.Proofs.Marker.Edit

/-!
# Placing markers by bytes

The body between the delimiters of a literal is a slice of the text, and a marker is put into the
body between two slices of it. A line that starts with a marker is replaced as a whole, from the
line break before it to the one that ends it. The line of a `BEGIN` is told by the offset just past
the word: five bytes before it, the scan of the body has to be at top level.

The result is that of `Marker.ensure` (`Checked.ensure_eq`).
-/

namespace RoutineScripts

namespace Marker

open Recogniser Text

/-! ### Lines that start with a marker -/

/-- The line of a body that starts with a marker: the byte span of the line with the breaks at both
of its ends, and what stands in this span before the marker and after it. -/
structure MarkedLine where
  first : Nat
  last : Nat
  lead : Text
  trail : Text
  deriving DecidableEq, Repr

/-- The first line of a body that starts with a marker. -/
def markedLine? (body : Text) : Option MarkedLine :=
  (splitExisting? body).map fun (before, found, after) =>
    let front := (dropTail (· != '\n') before).dropLast
    let trail := after.takeWhile (· != '\n') ++ (after.dropWhile (· != '\n')).take 1
    { first := byteLength front
      last := (before ++ found ++ trail).byteLength
      lead := before.drop front.length
      trail }

/-! ### Lines that start with `BEGIN` -/

/-- Whether a text starts with the word `BEGIN`. -/
def startsBegin (text : Text) : Bool :=
  match keyword "BEGIN" text with
  | some (_, after) => endsWord after
  | none => false

/-- The indentation of a line and the word `BEGIN` that the line starts with. -/
def beginAt? (previous : Option Char) (text : Text) : Option Text :=
  if startsLine previous && startsBegin (text.dropWhile isIndent) then
    some (text.takeWhile isIndent ++ (text.dropWhile isIndent).take 5)
  else none

/-- The byte offsets just past the words `BEGIN` that lines start with. The text starts at an
offset, and the character before it is given. -/
def beginEnds : Option Char → Nat → Text → List Nat
  | _, _, [] => []
  | previous, offset, c :: rest =>
      let later := beginEnds (some c) (offset + c.utf8Size) rest
      match beginAt? previous (c :: rest) with
      | some opening => (offset + opening.byteLength) :: later
      | none => later

/-- A text starts with `BEGIN` when its first five characters spell it and the word ends there. -/
theorem startsBegin_iff {text : Text} :
    startsBegin text = true ↔
      Spells "BEGIN".toList (text.take 5) ∧ endsWord (text.drop 5) = true := by
  rw [startsBegin]
  constructor
  · intro starts
    split at starts
    case h_2 => cases starts
    case h_1 word after read =>
      obtain ⟨spells, rfl⟩ := keyword_eq_some_iff.mp read
      have size : word.length = 5 := spells.length_eq
      rw [List.take_left' size, List.drop_left' size]
      exact ⟨spells, starts⟩
  · rintro ⟨spells, ends⟩
    rw [keyword_eq_some_iff.mpr ⟨spells, (List.take_append_drop 5 text).symm⟩]
    exact ends

/-- The letters of the word have one byte each. -/
theorem byteLength_of_spells_begin {word : Text} (spells : Spells "BEGIN".toList word) :
    byteLength word = 5 := by
  have checked : ∀ letter ∈ "BEGIN".toList, decide (letter.toNat < 128 ∧
      ∀ code ∈ formCodes, isFormOf letter (Char.ofNat code) = true →
        decide ((Char.ofNat code).toNat < 0x80) = true) = true :=
    List.all_eq_true.mp (by decide +kernel)
  have ascii : ∀ c ∈ word, c.toNat < 0x80 := by
    intro c member
    obtain ⟨letter, listed, form⟩ := Remark.exists_isFormOf_of_spells spells member
    obtain ⟨plain, forms⟩ := of_decide_eq_true (checked letter listed)
    exact of_decide_eq_true
      (@eq_true_of_isFormOf (fun c => decide (c.toNat < 0x80)) letter c plain forms form)
  rw [byteLength_of_ascii ascii, spells.length_eq]
  rfl

/-- A block begins at top level, where the text starts with `BEGIN`. -/
theorem beginsBlock_eq (glyphs : List Glyph) :
    beginsBlock glyphs = (glyphs.head?.any Glyph.isTopLevel && startsBegin (ofGlyphs glyphs)) := by
  rw [Bool.eq_iff_iff, beginsBlock_iff, Bool.and_eq_true, startsBegin_iff]
  simp only [ofGlyphs, List.map_take, List.map_drop]

section Glyphs

variable {previous : Option Glyph} {glyphs : List Glyph}

/-- Dropping characters drops their glyphs. -/
theorem dropWhile_ofGlyphs (test : Char → Bool) (glyphs : List Glyph) :
    (ofGlyphs glyphs).dropWhile test = ofGlyphs (glyphs.dropWhile fun glyph => test glyph.char) :=
  List.dropWhile_map ..

/-- Taking characters takes their glyphs. -/
theorem takeWhile_ofGlyphs (test : Char → Bool) (glyphs : List Glyph) :
    (ofGlyphs glyphs).takeWhile test = ofGlyphs (glyphs.takeWhile fun glyph => test glyph.char) :=
  List.takeWhile_map ..

/-- Where no `BEGIN` is found by bytes, there is none among the glyphs. -/
theorem beginTest_of_beginAt?_eq_none
    (missed : beginAt? (previous.map Glyph.char) (ofGlyphs glyphs) = none) :
    beginTest previous glyphs = none := by
  rw [beginAt?, dropWhile_ofGlyphs] at missed
  rw [beginTest]
  split
  case isTrue starts =>
    rw [starts, Bool.true_and] at missed
    split at missed
    case isTrue => cases missed
    case isFalse other =>
      simp only [beginsBlock_eq, other, Bool.and_false, Bool.false_eq_true, if_false]
  case isFalse => rfl

/-- Where the word starts a line, the line opens a block if the word is at top level. -/
theorem beginTest_of_beginAt?_eq_some {opening : Text}
    (found : beginAt? (previous.map Glyph.char) (ofGlyphs glyphs) = some opening) :
    ∃ indent first letters after, glyphs = indent ++ first :: letters ++ after ∧
      opening = ofGlyphs (indent ++ first :: letters) ∧
      byteLength (ofGlyphs (first :: letters)) = 5 ∧
      beginTest previous glyphs =
        if first.isTopLevel then some (indent ++ first :: letters, after) else none := by
  rw [beginAt?, dropWhile_ofGlyphs, takeWhile_ofGlyphs] at found
  have whole : (glyphs.takeWhile fun glyph => isIndent glyph.char) ++
      (glyphs.dropWhile fun glyph => isIndent glyph.char) = glyphs :=
    List.takeWhile_append_dropWhile
  unfold beginTest
  generalize (glyphs.takeWhile fun glyph => isIndent glyph.char) = indent at *
  generalize (glyphs.dropWhile fun glyph => isIndent glyph.char) = rest at *
  split at found
  case isFalse => cases found
  case isTrue both =>
    obtain ⟨starts, begins⟩ := Bool.and_eq_true_iff.mp both
    have spells := (startsBegin_iff.mp begins).1
    obtain ⟨first, more, rfl⟩ : ∃ first more, rest = first :: more := by
      cases rest with
      | nil => cases spells
      | cons first more => exact ⟨first, more, rfl⟩
    have cut : (ofGlyphs (first :: more)).take 5 = ofGlyphs (first :: more.take 4) := by
      simp [ofGlyphs]
    rw [cut] at spells found
    refine ⟨indent, first, more.take 4, more.drop 4, ?_, ?_, byteLength_of_spells_begin spells, ?_⟩
    · rw [← whole, List.append_assoc, List.cons_append, List.take_append_drop]
    · rw [← Option.some.inj found, ofGlyphs_append]
    · rw [if_pos starts]
      simp only [beginsBlock_eq, begins, Bool.and_true, List.head?_cons, Option.any_some]
      rfl

end Glyphs

end Marker

namespace Checked

open Marker

/-- The body with another marker in the first line that starts with one. -/
def replaceMarker? (guid : Guid) (body : Text) : Checked (Option Text) :=
  match markedLine? body with
  | none => return none
  | some line => do
      let front ← sliceTo body line.first
      let back ← sliceFrom body line.last
      return some (front ++ (line.lead ++ token guid ++ line.trail) ++ back)

/-- A marker is replaced without a fault. -/
theorem replaceMarker?_eq (guid : Guid) (body : Text) :
    replaceMarker? guid body =
      .ok ((splitExisting? body).map fun (before, _, after) => before ++ token guid ++ after) := by
  unfold replaceMarker? markedLine?
  cases found : splitExisting? body with
  | none => rfl
  | some parts =>
      obtain ⟨before, marker, after⟩ := parts
      obtain ⟨passed, start, same, marks, _⟩ := splitExisting?_eq_some_iff.mp found
      have whole : body = before ++ marker ++ after := by rw [marks.split, same]
      -- The span starts in front of the marker.
      obtain ⟨lead, led⟩ : (Text.dropTail (· != '\n') before).dropLast <+: before :=
        (List.dropLast_prefix _).trans ⟨_, Text.dropTail_append_takeTail _ before⟩
      -- It ends behind the marker.
      obtain ⟨rest, trails⟩ : after.takeWhile (· != '\n') ++ (after.dropWhile (· != '\n')).take 1
          <+: after := by
        refine ⟨(after.dropWhile (· != '\n')).drop 1, ?_⟩
        rw [List.append_assoc, List.take_append_drop, List.takeWhile_append_dropWhile]
      dsimp only [Option.map_some]
      generalize (Text.dropTail (· != '\n') before).dropLast = front at led ⊢
      generalize after.takeWhile (· != '\n') ++ (after.dropWhile (· != '\n')).take 1 = trail
        at trails ⊢
      subst led trails whole
      have above := sliceTo_append front (lead ++ marker ++ (trail ++ rest))
      have below := sliceFrom_append (front ++ lead ++ marker ++ trail) rest
      simp only [List.append_assoc] at above below ⊢
      rw [above, ok_bind, below, ok_bind, List.drop_left]
      simp
      rfl

/-- The first of the offsets just past a `BEGIN` whose word starts at top level. -/
def firstBlock? (body : Text) : List Nat → Checked (Option Nat)
  | [] => return none
  | stop :: stops => do
      let start ← minus stop 5
      if ← isTopLevelAt body start then return some stop else firstBlock? body stops

/-- The body with a new line at an offset, after a line break, indented like the line there. -/
def insertIndented (newLine lineBreak body : Text) (place : Nat) : Checked Text := do
  let rest ← sliceFrom body place
  let indented ← minus rest.byteLength (Text.byteLength (rest.dropWhile isIndent))
  let indent ← sliceTo rest indented
  let front ← sliceTo body place
  return front ++ lineBreak ++ indent ++ newLine ++ '\n' :: rest

/-- The body with a new line after the first line that starts with a `BEGIN` at top level. -/
def insertAfterBegin? (newLine body : Text) : Checked (Option Text) := do
  match ← firstBlock? body (beginEnds none 0 body) with
  | none => return none
  | some stop =>
      let after ← sliceFrom body stop
      match Text.firstPlace? (· == '\n') after with
      | some found =>
          let marked ← insertIndented newLine [] body (stop + found + 1)
          return some marked
      | none =>
          let marked ← insertIndented newLine ['\n'] body body.byteLength
          return some marked

/-- The body with a new line after its first line break, or at its start. -/
def insertAfterOpening (newLine body : Text) : Checked Text := do
  let place := (Text.firstPlace? (· == '\n') body).elim 0 (· + 1)
  let front ← sliceTo body place
  let back ← sliceFrom body place
  return front ++ newLine ++ '\n' :: back

/-- The offset of a glyph is at top level if the glyph is. -/
theorem isTopLevelAt_glyph {body : Text} {front rest : List Glyph} {glyph : Glyph}
    (split : body.scan = front ++ glyph :: rest) :
    body.isTopLevelAt (Text.ofGlyphs front).byteLength = glyph.isTopLevel := by
  have positions : body.topLevelPositions 0 = Glyph.topLevelFrom 0 body.scan := by
    have left := Text.dropBytes_append [] body
    rw [List.nil_append, Text.byteLength_nil] at left
    rw [Text.topLevelPositions, left]
    rfl
  have before : (Text.ofGlyphs front).byteLength ∉ Glyph.topLevelFrom 0 front := by
    intro member
    have bounds := Glyph.bounds_of_mem_topLevelFrom member
    omega
  have behind : (Text.ofGlyphs front).byteLength ∉
      Glyph.topLevelFrom ((Text.ofGlyphs front).byteLength + glyph.char.utf8Size) rest := by
    intro member
    have bounds := Glyph.bounds_of_mem_topLevelFrom member
    have positive := glyph.char.utf8Size_pos
    omega
  rw [Bool.eq_iff_iff, Text.isTopLevelAt_iff, positions, split, Glyph.topLevelFrom_append,
    Nat.zero_add, Glyph.topLevelFrom, List.mem_append, or_iff_right before]
  cases glyph.isTopLevel with
  | true => simp [Glyph.range'_utf8Size]
  | false => simpa using behind

/-- **The first block of a body.** -/
theorem firstBlock?_beginEnds {body : Text} (front glyphs : List Glyph)
    (split : body.scan = front ++ glyphs) :
    firstBlock? body (beginEnds (front.getLast?.map Glyph.char) (Text.ofGlyphs front).byteLength
        (Text.ofGlyphs glyphs)) =
      .ok ((search beginTest front.getLast? glyphs).map fun (passed, start, _) =>
        (Text.ofGlyphs (front ++ passed ++ start)).byteLength) := by
  induction glyphs generalizing front with
  | nil =>
      have missed : beginTest front.getLast? [] = none := by
        refine beginTest_of_beginAt?_eq_none ?_
        have nothing : startsBegin [] = false := rfl
        simp [beginAt?, Text.ofGlyphs, nothing]
      rw [search, missed]
      rfl
  | cons glyph glyphs ih =>
      have later := ih (front ++ [glyph]) (by rw [split]; simp)
      have last : (front ++ [glyph]).getLast?.map Glyph.char = some glyph.char := by simp
      have size : (Text.ofGlyphs (front ++ [glyph])).byteLength =
          (Text.ofGlyphs front).byteLength + glyph.char.utf8Size := by
        simp [Text.ofGlyphs]
      rw [last, size, List.getLast?_concat] at later
      rw [search]
      have shape : Text.ofGlyphs (glyph :: glyphs) = glyph.char :: Text.ofGlyphs glyphs := rfl
      cases found : beginAt? (front.getLast?.map Glyph.char) (Text.ofGlyphs (glyph :: glyphs)) with
      | none =>
          rw [beginTest_of_beginAt?_eq_none found, shape, beginEnds, ← shape, found]
          dsimp only
          rw [later]
          simp [Function.comp_def]
      | some opening =>
          obtain ⟨indent, first, letters, after, whole, rfl, letterSize, tested⟩ :=
            beginTest_of_beginAt?_eq_some found
          have cut : body.scan = front ++ indent ++ first :: (letters ++ after) := by
            rw [split, whole]
            simp
          have start : minus ((Text.ofGlyphs front).byteLength +
              (Text.ofGlyphs (indent ++ first :: letters)).byteLength) 5 =
                .ok (Text.ofGlyphs (front ++ indent)).byteLength := by
            rw [Text.ofGlyphs_append indent, Text.byteLength_append, letterSize, ← Nat.add_assoc,
              ← Text.byteLength_append, ← Text.ofGlyphs_append, Nat.add_comm, minus_add]
          rw [shape, beginEnds, ← shape, found]
          dsimp only
          rw [firstBlock?, start, ok_bind, isTopLevelAt_eq, isTopLevelAt_glyph cut, ok_bind, tested]
          cases first.isTopLevel with
          | true =>
              have stop : (Text.ofGlyphs front).byteLength +
                  (Text.ofGlyphs (indent ++ first :: letters)).byteLength =
                    (Text.ofGlyphs (front ++ [] ++ (indent ++ first :: letters))).byteLength := by
                rw [List.append_nil, Text.ofGlyphs_append front, Text.byteLength_append]
              exact congrArg (fun stop => Except.ok (some stop)) stop
          | false =>
              simp only [Bool.false_eq_true, if_false]
              rw [later]
              simp [Function.comp_def]

/-- The first block is found without a fault. -/
theorem firstBlock?_eq (body : Text) :
    firstBlock? body (beginEnds none 0 body) =
      .ok ((splitBegin? body).map fun (before, _) => before.byteLength) := by
  have found := firstBlock?_beginEnds [] body.scan rfl
  rw [Text.ofGlyphs_scan] at found
  rw [splitBegin?_eq, Option.map_map]
  exact found

/-- A line is inserted with an indentation without a fault. -/
theorem insertIndented_append (newLine lineBreak front rest : Text) :
    insertIndented newLine lineBreak (front ++ rest) front.byteLength =
      .ok (front ++ lineBreak ++ rest.takeWhile isIndent ++ newLine ++ '\n' :: rest) := by
  have whole : rest.takeWhile isIndent ++ rest.dropWhile isIndent = rest :=
    List.takeWhile_append_dropWhile
  have indented : minus rest.byteLength (Text.byteLength (rest.dropWhile isIndent)) =
      .ok (Text.byteLength (rest.takeWhile isIndent)) := by
    have size := Text.byteLength_append (rest.takeWhile isIndent) (rest.dropWhile isIndent)
    rw [whole, Nat.add_comm] at size
    rw [size, minus_add]
  have indent := sliceTo_append (rest.takeWhile isIndent) (rest.dropWhile isIndent)
  rw [whole] at indent
  rw [insertIndented, sliceFrom_append, ok_bind, indented, ok_bind, indent, ok_bind,
    sliceTo_append]
  rfl

/-- A marker line is put below the first `BEGIN` without a fault. -/
theorem insertAfterBegin?_eq (newLine body : Text) :
    insertAfterBegin? newLine body =
      .ok ((splitBegin? body).map fun (before, after) =>
        before ++ insertAfterLine newLine after) := by
  rw [insertAfterBegin?, firstBlock?_eq, ok_bind]
  cases found : splitBegin? body with
  | none => rfl
  | some parts =>
      obtain ⟨before, after⟩ := parts
      obtain ⟨passed, indent, word, same, opens, _⟩ := splitBegin?_eq_some_iff.mp found
      have whole : body = before ++ after := by rw [opens.split, same]
      subst whole
      rw [Option.map_some, Option.map_some]
      dsimp only
      rw [sliceFrom_append, ok_bind]
      rcases exists_line after with unbroken | ⟨inner, following, rfl, unbroken⟩
      · have inserted := insertIndented_append newLine ['\n'] (before ++ after) []
        rw [List.append_nil] at inserted
        rw [Text.firstPlace?_of_not_mem unbroken, insertAfterLine_of_not_mem unbroken]
        dsimp only
        rw [inserted, ok_bind]
        simp
        rfl
      · have inserted := insertIndented_append newLine [] (before ++ inner ++ ['\n']) following
        have place : (before ++ inner ++ ['\n']).byteLength =
            before.byteLength + Text.byteLength inner + 1 := by
          rw [Text.byteLength_concat (by decide), Text.byteLength_append]
        rw [place, List.append_assoc, List.append_assoc, List.singleton_append] at inserted
        rw [Text.firstPlace?_append unbroken, insertAfterLine_append unbroken]
        dsimp only
        rw [inserted, ok_bind]
        simp
        rfl

/-- A marker line is put below the opening line without a fault. -/
theorem insertAfterOpening_eq (newLine body : Text) :
    insertAfterOpening newLine body = .ok (Marker.insertAfterOpening newLine body) := by
  rw [insertAfterOpening]
  rcases exists_line body with unbroken | ⟨inner, following, rfl, unbroken⟩
  · rw [Text.firstPlace?_of_not_mem unbroken, insertAfterOpening_of_not_mem unbroken]
    have front := sliceTo_append [] body
    have back := sliceFrom_append [] body
    rw [List.nil_append, Text.byteLength_nil] at front back
    rw [Option.elim_none, front, ok_bind, back, ok_bind]
    rfl
  · rw [Text.firstPlace?_append unbroken, insertAfterOpening_append unbroken]
    have size := Text.byteLength_concat (c := '\n') (by decide) inner
    have front := sliceTo_append (inner ++ ['\n']) following
    have back := sliceFrom_append (inner ++ ['\n']) following
    rw [List.append_assoc, List.singleton_append, size] at front back
    rw [Option.elim_some, front, ok_bind, back, ok_bind]
    simp
    rfl

/-- The body with a marker for an identifier. -/
def updateBody? (guid : Guid) (plpgsql : Bool) (body : Text) : Checked (Option Text) := do
  match ← replaceMarker? guid body with
  | some updated => return some updated
  | none =>
      if plpgsql then insertAfterBegin? (line guid) body
      else
        let updated ← insertAfterOpening (line guid) body
        return some updated

/-- A body is marked without a fault. -/
theorem updateBody?_eq (guid : Guid) (plpgsql : Bool) (body : Text) :
    updateBody? guid plpgsql body = .ok (Marker.updateBody? guid plpgsql body) := by
  rw [updateBody?, replaceMarker?_eq, ok_bind, Marker.updateBody?]
  cases splitExisting? body with
  | some parts => rfl
  | none =>
      rw [Option.map_none]
      dsimp only
      rw [insertAfterBegin?_eq, insertAfterOpening_eq, ok_bind]
      cases plpgsql <;> rfl

/-- The text with a marker for an identifier in the body of its script, where one can be placed. -/
def place? (text : Text) (guid : Guid) : Checked (Option Text) := do
  match ← definition? text.normalize with
  | none => return none
  | some record =>
      match record.body.delimiter with
      | .quoted _ => return none
      | .dollar tag =>
          let literal ← literalText record
          let stop ← minus literal.byteLength tag.byteLength
          let body ← slice literal tag.byteLength stop
          match ← updateBody? guid (declaresPlpgsql text.normalize) body with
          | none => return none
          | some updated =>
              let spliced ← splice record (tag ++ updated ++ tag)
              return some ((LineEnding.detect text).apply spliced)

/-- The text with a marker for the identifier `id` in the body of its script, or unchanged. -/
def ensure (text id : Text) : Checked Text :=
  match Guid.parse? id with
  | none => return text
  | some guid => do
      let placed ← place? text guid
      return placed.getD text

/-- A text is marked without a fault. -/
theorem place?_eq (text : Text) (guid : Guid) :
    place? text guid = .ok (Marker.place? text guid) := by
  rw [place?, definition?_eq, ok_bind, Marker.place?, Definition.ofText?, Option.map_map]
  cases Script.ofText? text.normalize with
  | none => rfl
  | some script =>
      have literal : literalText (Definition.ofScript script).record = .ok script.body.written :=
        literalText_record _
      have spliced (replacement : Text) : splice (Definition.ofScript script).record replacement =
          .ok (script.splice replacement) :=
        splice_record _ replacement
      have delimited : (Definition.ofScript script).record.body.delimiter =
          script.body.delimiter := rfl
      rw [Option.map_some]
      dsimp only [Function.comp_apply]
      rw [delimited, literal]
      cases body : script.body with
      | quoted content link => rfl
      | dollar tag content =>
          have stop : minus (tag ++ content ++ tag).byteLength tag.byteLength =
              .ok (tag ++ content).byteLength := by
            rw [Text.byteLength_append _ tag, Nat.add_comm, minus_add]
          have inner : slice (tag ++ content ++ tag) tag.byteLength (tag ++ content).byteLength =
              .ok content :=
            slice_eq _ _ rfl rfl (Text.byteLength_append tag content).symm
          dsimp only [Literal.delimiter, Literal.written]
          rw [ok_bind, stop, ok_bind, inner, ok_bind, updateBody?_eq, ok_bind]
          cases Marker.updateBody? guid (declaresPlpgsql text.normalize) content with
          | none => rfl
          | some updated =>
              dsimp only
              rw [spliced, ok_bind]
              rfl

/-- **Markers by bytes.** -/
theorem ensure_eq (text id : Text) : ensure text id = .ok (Marker.ensure text id) := by
  unfold ensure Marker.ensure
  cases Guid.parse? id with
  | none => rfl
  | some guid =>
      dsimp only
      rw [place?_eq]
      rfl

end Checked

end RoutineScripts
