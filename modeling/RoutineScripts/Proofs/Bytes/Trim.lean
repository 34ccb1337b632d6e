import RoutineScripts.Proofs.Bytes.Search
import RoutineScripts.Proofs.Lexical.Masking
import RoutineScripts.Proofs.Text.Ends
import RoutineScripts.Routine.Name
import RoutineScripts.Routine.Options

/-!
# Parts of a text by bytes

Blank lines are trimmed, comments are masked and a name is cut at its dot by slices of the text.
The ends of these slices are offsets that a search found, or sums and differences of them. Each is
the length of a front of the text: the character after which a slice starts is a line break or a
dot, which has one byte, and a comment starts and ends between characters.

The readings agree with the functions on texts (`Checked.trimBlankLines_eq`,
`Checked.maskComments_eq`, `Checked.options_eq`, `Checked.qualifiedName_eq`).
-/

namespace RoutineScripts

namespace Text

/-- The byte offset of the first character that passes a test. -/
def firstPlace? (test : Char → Bool) (text : Text) : Option Nat :=
  match text.dropWhile (!test ·) with
  | [] => none
  | _ :: _ => some (byteLength (text.takeWhile (!test ·)))

/-- The byte offset of the last character that passes a test. -/
def lastPlace? (test : Char → Bool) (text : Text) : Option Nat :=
  match dropTail (!test ·) text with
  | [] => none
  | c :: front => some (byteLength (c :: front).dropLast)

/-- Without a character that passes, a text goes on to its end. -/
theorem elim_firstPlace? (test : Char → Bool) (text : Text) (before : Nat) :
    (firstPlace? test text).elim (before + text.byteLength) (before + ·) =
      before + byteLength (text.takeWhile (!test ·)) := by
  unfold firstPlace?
  split
  case h_1 missing =>
    have whole : text.takeWhile (!test ·) ++ text.dropWhile (!test ·) = text :=
      List.takeWhile_append_dropWhile
    rw [missing, List.append_nil] at whole
    rw [whole]
    rfl
  case h_2 => rfl

/-- A character that does not stand in a text has no place there. -/
theorem firstPlace?_of_not_mem {c : Char} {text : Text} (absent : c ∉ text) :
    firstPlace? (· == c) text = none := by
  have passes : ∀ d ∈ text, (!(d == c)) = true := by
    intro d member
    simpa using fun same : d = c => absent (same ▸ member)
  rw [firstPlace?, List.dropWhile_eq_nil_iff.mpr passes]

/-- The first place of a character is the length of the text in front of it. -/
theorem firstPlace?_append {c : Char} {front : Text} (absent : c ∉ front) (back : Text) :
    firstPlace? (· == c) (front ++ c :: back) = some front.byteLength := by
  have passes : ∀ d ∈ front, (!(d == c)) = true := by
    intro d member
    simpa using fun same : d = c => absent (same ▸ member)
  rw [firstPlace?, List.dropWhile_append_of_pos passes, List.takeWhile_append_of_pos passes]
  simp

/-- The offset just past the last character that passes, if all that do have one byte. -/
theorem elim_lastPlace? {test : Char → Bool} (onAscii : OnAscii test) (text : Text) :
    (lastPlace? test text).elim 0 (· + 1) = byteLength (dropTail (!test ·) text) := by
  unfold lastPlace?
  rcases dropTail_cases (!test ·) text with none | ⟨front, c, shape, passes⟩
  · rw [none]
    rfl
  · have ascii := onAscii c (by simpa using passes)
    have last : byteLength (front ++ [c]) = byteLength front + 1 :=
      byteLength_concat ascii front
    rw [shape, last]
    split
    case h_1 none => simp at none
    case h_2 first others same =>
      rw [← same, List.dropLast_concat]
      rfl

end Text

/-- The byte spans of the comments among tokens, the first of which starts at `offset`. -/
def Token.spansFrom (offset : Nat) (tokens : List Token) : List (Nat × Nat) :=
  ((placed offset tokens).filter fun (_, token) => token.isComment).map
    fun (place, token) => (place, place + token.written.byteLength)

theorem Token.spansFrom_cons (offset : Nat) (token : Token) (tokens : List Token) :
    spansFrom offset (token :: tokens) =
      if token.isComment then
        (offset, offset + token.written.byteLength)
          :: spansFrom (offset + token.written.byteLength) tokens
      else spansFrom (offset + token.written.byteLength) tokens := by
  cases comment : token.isComment <;> simp [spansFrom, placed, comment]

namespace Checked

/-! ### Blank lines -/

/-- The text without whole blank lines at its ends. -/
def trimBlankLines (text : Text) : Checked Text := do
  let leading ← minus text.byteLength (Text.byteLength (text.dropWhile isBlank))
  let lead ← sliceTo text leading
  let start := (Text.lastPlace? isBreak lead).elim 0 (· + 1)
  let visible := max (Text.byteLength (Text.dropTail isBlank text)) start
  let tail ← sliceFrom text visible
  slice text start ((Text.firstPlace? isBreak tail).elim text.byteLength (visible + ·))

theorem onAscii_isBreak : OnAscii isBreak := by
  intro c breaks
  rcases eq_of_isBreak breaks with rfl | rfl <;> decide

/-- What starts at one offset and goes from another one up to the end of the line. -/
theorem slice_to_break (above middle trail : Text) :
    (do
      let tail ← sliceFrom (above ++ middle ++ trail) (above ++ middle).byteLength
      slice (above ++ middle ++ trail) above.byteLength
        ((Text.firstPlace? isBreak tail).elim (above ++ middle ++ trail).byteLength
          ((above ++ middle).byteLength + ·))) =
      .ok (middle ++ trail.takeWhile (!isBreak ·)) := by
  have line : trail.takeWhile (!isBreak ·) ++ trail.dropWhile (!isBreak ·) = trail :=
    List.takeWhile_append_dropWhile
  rw [sliceFrom_append, ok_bind, Text.byteLength_append _ trail, Text.elim_firstPlace?]
  refine slice_eq above (trail.dropWhile (!isBreak ·)) ?_ rfl ?_
  · rw [List.append_assoc, List.append_assoc, List.append_assoc, line]
  · rw [Text.byteLength_append, Text.byteLength_append, Nat.add_assoc]

/-- Where the trimmed text starts, and from where its end is looked for. -/
theorem trimBlankLines_start (text : Text) :
    trimBlankLines text = (do
      let start := Text.byteLength (Text.dropTail (!isBreak ·) (text.takeWhile isBlank))
      let visible := max (Text.byteLength (Text.dropTail isBlank text)) start
      let tail ← sliceFrom text visible
      slice text start ((Text.firstPlace? isBreak tail).elim text.byteLength (visible + ·))) := by
  have whole : text.takeWhile isBlank ++ text.dropWhile isBlank = text :=
    List.takeWhile_append_dropWhile
  have leading : minus text.byteLength (Text.byteLength (text.dropWhile isBlank)) =
      .ok (Text.byteLength (text.takeWhile isBlank)) := by
    have length := Text.byteLength_append (text.takeWhile isBlank) (text.dropWhile isBlank)
    rw [whole, Nat.add_comm] at length
    rw [length, minus_add]
  have lead := sliceTo_append (text.takeWhile isBlank) (text.dropWhile isBlank)
  rw [whole] at lead
  rw [trimBlankLines, leading, ok_bind, lead, ok_bind, Text.elim_lastPlace? onAscii_isBreak]

/-- **Trimming.** Blank lines are trimmed without a fault. -/
theorem trimBlankLines_eq (text : Text) : trimBlankLines text = .ok text.trimBlankLines := by
  rw [trimBlankLines_start]
  rcases Text.blank_or_exists_parts text with blank | ⟨lead, core, trail, rfl, parts⟩
  · -- Without a visible character, the text ends in the line that it is cut to.
    have none : Text.dropTail isBlank text = [] := by
      have ends := Text.dropTail_append_takeTail isBlank text
      rw [Text.takeTail_of_forall blank] at ends
      exact List.append_left_eq_self.mp ends
    have line : (Text.takeTail (!isBreak ·) text).takeWhile (!isBreak ·) =
        Text.takeTail (!isBreak ·) text :=
      List.takeWhile_eq_self_iff.mpr fun _ => Text.mem_takeTail
    have found := slice_to_break (Text.dropTail (!isBreak ·) text) []
      (Text.takeTail (!isBreak ·) text)
    rw [List.append_nil, Text.dropTail_append_takeTail, List.nil_append, line] at found
    rw [Text.trimBlankLines_of_blank blank, List.takeWhile_eq_self_iff.mpr blank, none]
    simpa using found
  · have length := congrArg Text.byteLength (Text.dropTail_append_takeTail (!isBreak ·) lead)
    rw [Text.byteLength_append] at length
    have bound : Text.byteLength (Text.dropTail (!isBreak ·) lead) ≤
        Text.byteLength (lead ++ core) := by
      rw [Text.byteLength_append]
      omega
    have found := slice_to_break (Text.dropTail (!isBreak ·) lead)
      (Text.takeTail (!isBreak ·) lead ++ core) trail
    rw [← List.append_assoc, Text.dropTail_append_takeTail] at found
    rw [parts.span_eq.1, (parts.tail_eq lead).2, parts.trimBlankLines_eq]
    simp only [Nat.max_eq_left bound]
    exact found

/-! ### Comments -/

/-- The text from `last` on with spaces in place of some spans. -/
def fill (text : Text) : Nat → List (Nat × Nat) → Checked Text
  | last, [] => sliceFrom text last
  | last, (start, stop) :: spans => do
      let code ← slice text last start
      let rest ← fill text stop spans
      return code ++ List.replicate (stop - start) ' ' ++ rest

/-- The text with a space in place of each byte of its comments. -/
def maskComments (text : Text) : Checked Text := do
  let spans ← commentSpans text
  if spans.isEmpty then return text else fill text 0 spans

/-- **Slices between comments.** What was not written yet starts at the last comment and goes on
through the tokens. -/
theorem fill_append {tokens : List Token} {rest : Text} (segments : Token.Segments tokens rest)
    (front code : Text) :
    fill (front ++ code ++ rest) front.byteLength
        (Token.spansFrom (front ++ code).byteLength tokens) =
      .ok (code ++ rest.maskComments) := by
  induction tokens generalizing rest front code with
  | nil =>
      obtain rfl : rest = [] := segments
      rw [List.append_nil]
      exact (sliceFrom_append front code).trans (congrArg Except.ok (List.append_nil code).symm)
  | cons token tokens ih =>
      obtain ⟨rest, rfl, fits, others⟩ := segments
      rw [fits.maskComments_append, Token.textOf_masked, Token.spansFrom_cons]
      cases comment : token.isComment with
      | true =>
          have later := ih others (front ++ code ++ token.written) []
          have here : slice (front ++ code ++ (token.written ++ rest)) front.byteLength
              (front ++ code).byteLength = .ok code :=
            slice_eq _ _ rfl rfl (Text.byteLength_append front code).symm
          rw [List.append_nil, List.append_assoc _ token.written, List.nil_append,
            Text.byteLength_append _ token.written] at later
          rw [if_pos rfl, if_pos rfl, fill, here, ok_bind, later, ok_bind, Nat.add_sub_cancel_left,
            ← List.append_assoc]
          rfl
      | false =>
          have later := ih others front (code ++ token.written)
          rw [← List.append_assoc, Text.byteLength_append _ token.written] at later
          rw [if_neg Bool.false_ne_true, if_neg Bool.false_ne_true, ← List.append_assoc,
            ← List.append_assoc]
          exact later

/-- **Masking.** Comments are masked without a fault. -/
theorem maskComments_eq (text : Text) : maskComments text = .ok text.maskComments := by
  obtain ⟨tokens, segments⟩ := Token.exists_segments text
  have filled := fill_append segments [] []
  rw [List.append_nil, List.nil_append, Text.byteLength_nil, List.nil_append,
    Token.spansFrom, ← Token.commentsFrom_scan segments] at filled
  rw [maskComments, commentSpans_eq, ok_bind]
  split
  case isTrue none =>
    rw [Text.commentSpans] at none
    rw [List.isEmpty_iff.mp none, fill] at filled
    have whole : sliceFrom text 0 = .ok text := sliceFrom_append [] text
    exact whole.symm.trans filled
  case isFalse => exact filled

/-- The options declared in a segment. They are read off its masked form, which masking again does
not change. -/
def options (segment : Text) : Checked Options := do
  let masked ← maskComments segment
  return Options.ofText masked

/-- The options of a segment are read without a fault. -/
theorem options_eq (segment : Text) : options segment = .ok (Options.ofText segment) := by
  rw [options, maskComments_eq, ok_bind, Options.ofText, Text.maskComments_maskComments]
  rfl

/-! ### Names -/

/-- The name in a segment. -/
def qualifiedName (segment : Text) : Checked QualifiedName := do
  let name := segment.trim
  match ← findTopLevel? name (byteOf '.') 0 with
  | some dot =>
      let schema ← sliceTo name dot
      let bare ← sliceFrom name (dot + 1)
      return ⟨some (unquoteIdentifier schema), unquoteIdentifier bare⟩
  | none => return ⟨none, unquoteIdentifier name⟩

/-- A qualified name is read without a fault. -/
theorem qualifiedName_eq (segment : Text) :
    qualifiedName segment = .ok (QualifiedName.ofText segment) := by
  have found := findTopLevel?_append (by decide : '.'.toNat < 0x80) [] segment.trim
  rw [List.nil_append, Text.byteLength_nil] at found
  rw [qualifiedName, found, ok_bind, QualifiedName.ofText]
  cases split : Text.splitTopLevel? '.' segment.trim with
  | none => rfl
  | some parts =>
      obtain ⟨schema, bare⟩ := parts
      have whole := Text.eq_append_of_splitTopLevel? split
      have before : sliceTo segment.trim schema.byteLength = .ok schema := by
        rw [whole, sliceTo_append]
      have after : sliceFrom segment.trim (schema.byteLength + 1) = .ok bare := by
        have rest := sliceFrom_append (schema ++ ['.']) bare
        rwa [List.append_assoc, List.singleton_append, ← whole, Text.byteLength_append] at rest
      rw [Option.map_some]
      dsimp only
      rw [Nat.zero_add, before, ok_bind, after, ok_bind]
      rfl

end Checked

end RoutineScripts
