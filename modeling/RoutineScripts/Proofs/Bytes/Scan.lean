import RoutineScripts.Proofs.Bytes.Transition
import RoutineScripts.Proofs.Lexical.Refinement

/-!
# The scan by bytes

A scan can go through a text by its bytes and skip those that a transition took together. It reads
the text as the scan by characters does (`Checked.exists_steps`): what is taken together is ASCII,
and the bytes of other characters are passed one by one and leave the mode as it is
(`Checked.steps_plain`). So a scan from any offset, also from one inside a character or past the
end, makes no access that fails, and finds the offsets at top level
(`Checked.topLevelPositions_eq`) and the spans of comments (`Checked.commentSpans_eq`).
-/

namespace RoutineScripts

/-- Plain text is a proper mode. -/
theorem Mode.proper_normal : Mode.normal.Proper := trivial

namespace Checked

/-- What a scan by bytes does at an index: the mode it is in, and the transition. -/
structure ByteStep where
  index : Nat
  before : Mode
  step : Step
  deriving DecidableEq, Repr

namespace ByteStep

/-- The indices that were taken on their own and left the scan in plain text. -/
def topLevel (steps : List ByteStep) : List Nat :=
  (steps.filter fun taken => taken.step == ⟨.normal, 0⟩).map (·.index)

theorem topLevel_cons (taken : ByteStep) (steps : List ByteStep) :
    topLevel (taken :: steps) =
      if taken.step = ⟨.normal, 0⟩ then taken.index :: topLevel steps else topLevel steps := by
  rw [topLevel, List.filter_cons]
  by_cases plain : taken.step = ⟨.normal, 0⟩
  · rw [if_pos (beq_iff_eq.mpr plain), if_pos plain]
    rfl
  · rw [if_neg (mt beq_iff_eq.mp plain), if_neg plain]
    rfl

/-- The spans of comments among the steps of a scan up to `total`. `opened` is the start of a
comment that is being passed. -/
def comments (total : Nat) : Option Nat → List ByteStep → List (Nat × Nat)
  | opened, [] => (opened.map fun start => (start, total)).toList
  | opened, ⟨index, before, step⟩ :: steps =>
      if !before.isComment && step.mode.isComment then comments total (some index) steps
      else if before.isComment && !step.mode.isComment then
        (opened.map fun start => (start, index + step.skip)).toList ++ comments total none steps
      else comments total opened steps

/-- Steps over bytes that change no mode. -/
def plain (mode : Mode) (start count : Nat) : List ByteStep :=
  (List.range' start count).map fun index => ⟨index, mode, ⟨mode, 0⟩⟩

/-- One more step starts at the first index. -/
theorem plain_succ (mode : Mode) (start count : Nat) :
    plain mode start (count + 1) = ⟨start, mode, ⟨mode, 0⟩⟩ :: plain mode (start + 1) count := rfl

/-- Steps that change no mode open and close no comment. -/
theorem comments_plain (mode : Mode) (start count total : Nat) (opened : Option Nat)
    (steps : List ByteStep) :
    comments total opened (plain mode start count ++ steps) = comments total opened steps := by
  induction count generalizing start with
  | zero => rfl
  | succ count ih =>
      rw [plain_succ, List.cons_append, comments, ih]
      cases mode.isComment <;> rfl

/-- Steps in plain text add all their indices. -/
theorem topLevel_plain (mode : Mode) (start count : Nat) (steps : List ByteStep) :
    topLevel (plain mode start count ++ steps) =
      (if mode = .normal then List.range' start count else []) ++ topLevel steps := by
  induction count generalizing start with
  | zero => simp [plain]
  | succ count ih =>
      rw [plain_succ, List.cons_append, topLevel_cons, ih]
      by_cases normal : mode = .normal
      · simp [normal, List.range'_succ]
      · simp [normal]

end ByteStep

/-- The steps of a scan from an index on. -/
def steps (text : Text) (mode : Mode) (index : Nat) : Checked (List ByteStep) :=
  if index < text.byteLength then do
    let step ← advance text mode index
    let later ← steps text step.mode (index + max step.skip 1)
    return ⟨index, mode, step⟩ :: later
  else return []
termination_by text.byteLength - index

/-- The byte offsets at top level in a scan from an index on. -/
def topLevelPositions (text : Text) (start : Nat) : Checked (List Nat) := do
  let steps ← steps text .normal start
  return ByteStep.topLevel steps

/-- The byte spans of comments. -/
def commentSpans (text : Text) : Checked (List (Nat × Nat)) := do
  let steps ← steps text .normal 0
  return ByteStep.comments text.byteLength none steps

/-- A scan past the end takes no step. -/
theorem steps_of_le {text : Text} {index : Nat} (past : text.byteLength ≤ index) (mode : Mode) :
    steps text mode index = .ok [] := by
  rw [steps, if_neg (Nat.not_lt.mpr past)]
  rfl

/-- A scan takes one step, and goes on after the bytes that the step skips. -/
theorem steps_of_advance {text : Text} {mode : Mode} {index : Nat} {step : Step}
    {later : List ByteStep} (within : index < text.byteLength)
    (moved : advance text mode index = .ok step)
    (reached : steps text step.mode (index + max step.skip 1) = .ok later) :
    steps text mode index = .ok (⟨index, mode, step⟩ :: later) := by
  rw [steps, if_pos within, moved, ok_bind, reached]
  rfl

/-- **Bytes outside ASCII are passed.** -/
theorem steps_plain {text : Text} {mode : Mode} (proper : mode.Proper) {start count : Nat}
    (upper : ∀ index, start ≤ index → index < start + count → text.UpperAt index)
    {later : List ByteStep} (reached : steps text mode (start + count) = .ok later) :
    steps text mode start = .ok (ByteStep.plain mode start count ++ later) := by
  induction count generalizing start with
  | zero => exact reached
  | succ count ih =>
      obtain ⟨byte, found, high⟩ := upper start (Nat.le_refl _) (by omega)
      rw [← Nat.add_assoc, Nat.add_right_comm] at reached
      have others := ih (fun index lower bound => upper index (by omega) (by omega)) reached
      exact steps_of_advance (Text.lt_byteLength_of_byte? found)
        (advance_of_upper proper found high) others

/-- What the steps of a scan say of the glyphs from an offset on, in a text of `total` bytes. -/
structure Agrees (total offset : Nat) (mode : Mode) (glyphs : List Glyph)
    (steps : List ByteStep) : Prop where
  topLevel : ByteStep.topLevel steps = Glyph.topLevelFrom offset glyphs
  comments : ∀ opened : Option Nat, opened.isSome = mode.isComment →
    ByteStep.comments total opened steps = Glyph.commentsFrom opened offset glyphs

/-- A comment that is open in front of a scan outside comments is closed there. -/
theorem commentsFrom_scanFrom {mode : Mode} (outside : mode.isComment = false) (before : Mode)
    (opened : Option Nat) (offset : Nat) (text : Text) :
    Glyph.commentsFrom opened offset (Text.scanFrom before mode 0 text) =
      (opened.map fun start => (start, offset)).toList ++
        Glyph.commentsFrom none offset (Text.scanFrom before mode 0 text) := by
  cases text with
  | nil => simp [Text.scanFrom, Glyph.commentsFrom]
  | cons c rest =>
      have role : (if (mode.advance c rest).skip = 0 then Role.single
          else Role.lead (mode.advance c rest).skip) ≠ .later := by
        split <;> simp
      simp only [Text.scanFrom, Glyph.commentsFrom, Glyph.opensComment, Glyph.isComment, outside,
        bne_iff_ne.mpr role, Bool.not_false, Bool.and_true, Bool.false_and, Bool.or_false]
      cases (mode.advance c rest).mode.isComment <;> simp

theorem agrees_nil (total : Nat) (mode : Mode) : Agrees total total mode [] [] :=
  ⟨rfl, fun _ _ => rfl⟩

/-- A character that is taken on its own. Its bytes after the first one change no mode. -/
theorem Agrees.single {total offset : Nat} {mode next : Mode} {glyphs : List Glyph}
    {later : List ByteStep} (c : Char)
    (agrees : Agrees total (offset + c.utf8Size) next glyphs later) :
    Agrees total offset mode (⟨c, .single, mode, next⟩ :: glyphs)
      (⟨offset, mode, ⟨next, 0⟩⟩ ::
        (ByteStep.plain next (offset + 1) (c.utf8Size - 1) ++ later)) := by
  refine ⟨?_, fun opened same => ?_⟩
  · rw [ByteStep.topLevel_cons, ByteStep.topLevel_plain, agrees.topLevel, Glyph.topLevelFrom,
      Glyph.range'_utf8Size]
    by_cases normal : next = .normal
    · simp [normal, Glyph.isTopLevel]
    · simp [normal, Glyph.isTopLevel]
  · have others := agrees.comments
    simp only [ByteStep.comments, ByteStep.comments_plain, Glyph.commentsFrom, Glyph.opensComment,
      Glyph.isComment]
    rcases Bool.eq_false_or_eq_true mode.isComment with inside | outside
    · obtain ⟨start, rfl⟩ := Option.isSome_iff_exists.mp (same.trans inside)
      rcases Bool.eq_false_or_eq_true next.isComment with stays | leaves
      · simpa [inside, stays] using others (some start) (by simp [stays])
      · simpa [inside, leaves] using others none (by simp [leaves])
    · obtain rfl : opened = none := Option.not_isSome_iff_eq_none.mp (by simp [same, outside])
      rcases Bool.eq_false_or_eq_true next.isComment with enters | stays
      · simpa [outside, enters] using others (some offset) (by simp [enters])
      · simpa [outside, stays] using others none (by simp [stays])

/-- Characters that are taken together. None of them is at top level. -/
theorem Agrees.together {total offset taken : Nat} {mode next before : Mode} {back : Text}
    {later : List ByteStep} (c : Char) {front : Text}
    (size : c.utf8Size + front.byteLength = taken) (several : taken ≠ 0)
    (agrees : Agrees total (offset + taken) next (Text.scanFrom before next 0 back) later) :
    Agrees total offset mode
      (⟨c, .lead taken, mode, next⟩ ::
        ((front.map fun d => ⟨d, .later, mode, next⟩) ++ Text.scanFrom before next 0 back))
      (⟨offset, mode, ⟨next, taken⟩⟩ :: later) := by
  have chars : Text.ofGlyphs (front.map fun d => ⟨d, .later, mode, next⟩) = front := by
    simp [Text.ofGlyphs, Function.comp_def]
  have notSingle : (Role.later != Role.single) = true := rfl
  have covers : Glyph.Covers (next.isComment || mode.isComment)
      (front.map fun d => ⟨d, .later, mode, next⟩) := by
    intro glyph member
    obtain ⟨d, _, rfl⟩ := List.mem_map.mp member
    exact ⟨rfl, by simp [Glyph.opensComment], by simp [Glyph.isComment, notSingle]⟩
  refine ⟨?_, fun opened same => ?_⟩
  · rw [ByteStep.topLevel_cons, if_neg (by simp [several]), agrees.topLevel, Glyph.topLevelFrom,
      if_neg (by simp [Glyph.isTopLevel]), Glyph.topLevelFrom_append,
      Glyph.topLevelFrom_of_covers covers, chars, Nat.add_assoc, size]
    rfl
  · have others := agrees.comments
    have through (opened : Option Nat) (same : opened.isSome = (next.isComment || mode.isComment)) :
        Glyph.commentsFrom opened (offset + c.utf8Size)
            ((front.map fun d => ⟨d, .later, mode, next⟩) ++ Text.scanFrom before next 0 back) =
          Glyph.commentsFrom opened (offset + taken) (Text.scanFrom before next 0 back) := by
      rw [Glyph.commentsFrom_append covers same, chars, Nat.add_assoc, size]
    simp only [ByteStep.comments, Glyph.commentsFrom, Glyph.opensComment, Glyph.isComment]
    rcases Bool.eq_false_or_eq_true mode.isComment with inside | outside
    · obtain ⟨start, rfl⟩ := Option.isSome_iff_exists.mp (same.trans inside)
      have passed := through (some start) (by simp [inside])
      rcases Bool.eq_false_or_eq_true next.isComment with stays | leaves
      · simpa [inside, stays, passed] using others (some start) (by simp [stays])
      · rw [commentsFrom_scanFrom leaves] at passed
        simpa [inside, leaves, passed] using others none (by simp [leaves])
    · obtain rfl : opened = none := Option.not_isSome_iff_eq_none.mp (by simp [same, outside])
      rcases Bool.eq_false_or_eq_true next.isComment with enters | stays
      · have passed := through (some offset) (by simp [enters])
        simpa [outside, enters, passed] using others (some offset) (by simp [enters])
      · have passed := through none (by simp [stays, outside])
        simpa [outside, stays, passed] using others none (by simp [stays])

/-- **The scan by bytes reads the text as the scan by characters.** -/
theorem exists_steps {mode : Mode} (proper : mode.Proper) (before : Mode) (front rest : Text) :
    ∃ list, steps (front ++ rest) mode front.byteLength = .ok list ∧
      Agrees (front ++ rest).byteLength front.byteLength mode (Text.scanFrom before mode 0 rest)
        list := by
  induction length : rest.length using Nat.strongRecOn generalizing mode before front rest with
  | ind size ih =>
    cases rest with
    | nil =>
        rw [List.append_nil]
        exact ⟨[], steps_of_le (Nat.le_refl _) mode, agrees_nil _ mode⟩
    | cons c rest =>
        have moved := advance_append proper front c rest
        have properToo := Mode.proper_advance proper c rest
        have within := Text.byteLength_lt_append front c rest
        rcases Mode.takes_advance proper c rest with alone | ⟨taken, back, rfl, several, ascii⟩
        · obtain ⟨next, step⟩ : ∃ next, mode.advance c rest = ⟨next, 0⟩ :=
            ⟨_, congrArg (Step.mk _) alone⟩
          rw [step] at moved properToo
          obtain ⟨later, reached, agrees⟩ :=
            ih rest.length (by simp [← length]) properToo mode (front ++ [c]) rest rfl
          have place : (front ++ [c]).byteLength = front.byteLength + 1 + (c.utf8Size - 1) := by
            have positive := c.utf8Size_pos
            simp only [Text.byteLength_append, Text.byteLength_cons, Text.byteLength_nil]
            omega
          rw [List.append_assoc, List.singleton_append] at reached agrees
          have inner : ∀ index, front.byteLength + 1 ≤ index →
              index < front.byteLength + 1 + (c.utf8Size - 1) →
              (front ++ c :: rest).UpperAt index :=
            fun index lower bound => Text.upperAt_inside front c rest lower (by omega)
          rw [place] at reached
          refine ⟨_, steps_of_advance within moved (steps_plain properToo inner reached), ?_⟩
          simp only [Text.scanFrom, step]
          refine Agrees.single c ?_
          simpa using agrees
        · obtain ⟨next, step⟩ : ∃ next,
              mode.advance c (taken ++ back) = ⟨next, taken.length + 1⟩ :=
            ⟨_, congrArg (Step.mk _) several⟩
          rw [step] at moved properToo
          have shorter : back.length < (c :: (taken ++ back)).length := by
            rw [List.length_cons, List.length_append]
            omega
          obtain ⟨later, reached, agrees⟩ :=
            ih back.length (length ▸ shorter) properToo mode (front ++ c :: taken) back rfl
          have bytes := Text.byteLength_of_ascii ascii
          have place : (front ++ c :: taken).byteLength =
              front.byteLength + (taken.length + 1) := by
            rw [Text.byteLength_append, bytes, List.length_cons]
          have cut := ScanState.scan_append ⟨before, mode, 0⟩ (c :: taken) back
          rw [ScanState.glyphs_of_advance before step,
            (ScanState.after_of_advance before step).1] at cut
          have scanned : Text.scanFrom before mode 0 (c :: (taken ++ back)) =
              ⟨c, .lead (taken.length + 1), mode, next⟩ ::
                ((taken.map fun d => ⟨d, .later, mode, next⟩)
                  ++ Text.scanFrom mode next 0 back) := cut
          rw [List.append_assoc, List.cons_append, place] at reached agrees
          refine ⟨_, @steps_of_advance _ _ _ _ later within moved ?_, ?_⟩
          · rwa [Nat.max_eq_left (Nat.le_add_left 1 _)]
          · rw [scanned]
            exact Agrees.together c (by rw [← Text.byteLength_cons, bytes]; rfl) (by simp) agrees

/-- The offsets at top level are those of the scan by characters. -/
theorem topLevelPositions_append (front rest : Text) :
    topLevelPositions (front ++ rest) front.byteLength =
      .ok ((front ++ rest).topLevelPositions front.byteLength) := by
  obtain ⟨list, scanned, agrees⟩ := exists_steps Mode.proper_normal .normal front rest
  rw [topLevelPositions, scanned, ok_bind, agrees.topLevel, Text.topLevelPositions_append]
  rfl

/-- **Top-level offsets by bytes.** A scan from any offset makes no access that fails, and it finds
the offsets at top level. -/
theorem topLevelPositions_eq (text : Text) (start : Nat) :
    topLevelPositions text start = .ok (text.topLevelPositions start) := by
  cases left : text.dropBytes start with
  | mk cut rest =>
    rcases Text.dropBytes_cases left with ⟨_, front, rfl, rfl⟩ | ⟨rfl, rfl, past⟩ |
      ⟨_, front, c, rfl, before, size⟩
    · exact topLevelPositions_append front rest
    · rw [topLevelPositions, steps_of_le (Nat.le_of_lt past), Text.topLevelPositions, left]
      rfl
    · -- The scan passes the bytes that are left of the character that the offset cuts.
      have inner := fun index => @Text.upperAt_of_cut _ _ _ _ index left
      obtain ⟨list, scanned, agrees⟩ :=
        exists_steps Mode.proper_normal .normal (front ++ [c]) rest
      have place : (front ++ [c]).byteLength = start + cut := by
        rw [← size]
        simp
      rw [List.append_assoc, List.singleton_append, place] at scanned agrees
      rw [topLevelPositions, steps_plain Mode.proper_normal inner scanned, ok_bind,
        ByteStep.topLevel_plain, agrees.topLevel, Text.topLevelPositions, left]
      rfl

/-- **Comment spans by bytes.** -/
theorem commentSpans_eq (text : Text) : commentSpans text = .ok text.commentSpans := by
  obtain ⟨list, scanned, agrees⟩ := exists_steps Mode.proper_normal .normal [] text
  rw [Text.byteLength_nil, List.nil_append] at scanned agrees
  rw [commentSpans, scanned, ok_bind, agrees.comments none rfl]
  rfl

end Checked

end RoutineScripts
