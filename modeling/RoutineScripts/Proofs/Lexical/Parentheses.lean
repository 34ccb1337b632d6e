import RoutineScripts.Proofs.Lexical.Balance
import RoutineScripts.Proofs.Lexical.Position

/-!
# Matching parentheses

The parenthesis that closes a group is the first one at top level up to which more parentheses are
closed than opened (`Text.ClosesGroup`). The search counts the depth glyph by glyph; it stops after
glyphs that balance, and never before an excess (`Text.splitClosing?_eq_some_iff`,
`Text.splitClosing?_eq_none`). The numbers of parentheses up to a byte offset are those of the
glyphs that start there at the latest (`Glyph.startedBy`).

The text inside a group settles before the parenthesis that closes it, so it is read as on its own.
The main statement is `Text.parenSpan?_closes_group`.
-/

namespace RoutineScripts

namespace Glyph

/-- The glyphs that start at a byte offset at the latest. The first one is at `offset`. -/
def startedBy (place : Nat) : Nat → List Glyph → List Glyph
  | _, [] => []
  | offset, glyph :: rest =>
      if offset ≤ place then glyph :: startedBy place (offset + glyph.char.utf8Size) rest else []

/-- The glyphs that start by an offset are the first ones. -/
theorem startedBy_isPrefix (place offset : Nat) (glyphs : List Glyph) :
    startedBy place offset glyphs <+: glyphs := by
  induction glyphs generalizing offset with
  | nil => exact List.nil_prefix
  | cons glyph rest ih =>
      rw [startedBy]
      split
      · exact List.cons_prefix_cons.mpr ⟨rfl, ih _⟩
      · exact List.nil_prefix

/-- The glyphs of a front all start before those of the rest. -/
theorem startedBy_append {place offset : Nat} (front back : List Glyph) :
    startedBy place offset (front ++ back) =
      if offset + (Text.ofGlyphs front).byteLength ≤ place then
        front ++ startedBy place (offset + (Text.ofGlyphs front).byteLength) back
      else startedBy place offset front := by
  induction front generalizing offset with
  | nil =>
      cases back with
      | nil => simp [startedBy]
      | cons glyph back =>
          simp only [List.nil_append, Text.ofGlyphs, List.map_nil, Text.byteLength_nil,
            Nat.add_zero, startedBy]
          split <;> rfl
  | cons glyph front ih =>
      have shift : offset + (Text.ofGlyphs (glyph :: front)).byteLength =
          offset + glyph.char.utf8Size + (Text.ofGlyphs front).byteLength := by
        simp only [Text.ofGlyphs, List.map_cons, Text.byteLength_cons]
        omega
      rw [List.cons_append, startedBy, startedBy, ih, shift]
      by_cases reached : offset ≤ place
      · rw [if_pos reached, if_pos reached]
        split <;> rfl
      · rw [if_neg reached, if_neg reached, if_neg (by omega)]

/-- The glyphs up to the one at a byte offset. -/
theorem startedBy_at (offset : Nat) (passed : List Glyph) (glyph : Glyph) (rest : List Glyph) :
    startedBy (offset + (Text.ofGlyphs passed).byteLength) offset (passed ++ glyph :: rest) =
      passed ++ [glyph] := by
  have positive := glyph.char.utf8Size_pos
  rw [startedBy_append, if_pos (Nat.le_refl _), startedBy, if_pos (Nat.le_refl _)]
  cases rest with
  | nil => rfl
  | cons next rest => rw [startedBy, if_neg (by omega)]

/-- A byte offset before the glyph after some others is reached within those. -/
theorem startedBy_before {place offset : Nat} {passed : List Glyph} (rest : List Glyph)
    (before : place < offset + (Text.ofGlyphs passed).byteLength) :
    startedBy place offset (passed ++ rest) <+: passed := by
  rw [startedBy_append, if_neg (by omega)]
  exact startedBy_isPrefix place offset passed

/-- **Counting by offsets.** The occurrences of a character at top-level offsets up to a place are
the glyphs of this kind that have started there. -/
theorem countP_topLevelFrom (target : Char) (place : Nat) (front : Text) (glyphs : List Glyph) :
    (topLevelFrom front.byteLength glyphs).countP
        (fun here => here ≤ place && (front ++ Text.ofGlyphs glyphs).charAt? here == some target) =
      (startedBy place front.byteLength glyphs).countP (·.isTopLevelChar target) := by
  induction glyphs generalizing front with
  | nil => rfl
  | cons glyph rest ih =>
      have whole : front ++ Text.ofGlyphs (glyph :: rest) =
          front ++ [glyph.char] ++ Text.ofGlyphs rest := by
        simp [Text.ofGlyphs]
      have size : front.byteLength + glyph.char.utf8Size = (front ++ [glyph.char]).byteLength := by
        simp
      have first : (front ++ Text.ofGlyphs (glyph :: rest)).charAt? front.byteLength =
          some glyph.char :=
        Text.charAt?_append front _
      have inside : (List.range' (front.byteLength + 1) (glyph.char.utf8Size - 1)).countP
          (fun here => here ≤ place &&
            (front ++ Text.ofGlyphs (glyph :: rest)).charAt? here == some target) = 0 := by
        refine List.countP_eq_zero.mpr fun here member => ?_
        have nothing : (front ++ Text.ofGlyphs (glyph :: rest)).charAt? here = none :=
          charAt?_of_mem_range' member
        simp [nothing]
      have later := ih (front ++ [glyph.char])
      rw [← whole, ← size] at later
      have beyond (unreached : ¬ front.byteLength ≤ place) :
          startedBy place (front.byteLength + glyph.char.utf8Size) rest = [] := by
        cases rest with
        | nil => rfl
        | cons next rest => exact if_neg (by omega)
      rw [topLevelFrom, startedBy]
      cases topLevel : glyph.isTopLevel with
      | true =>
          rw [if_pos rfl, List.countP_append, range'_utf8Size, List.countP_cons, inside, later,
            first]
          by_cases reached : front.byteLength ≤ place
          · rw [if_pos reached, List.countP_cons]
            simp [reached, isTopLevelChar, topLevel, Nat.add_comm]
          · rw [if_neg reached, beyond reached]
            simp [reached]
      | false =>
          rw [if_neg Bool.false_ne_true, later]
          by_cases reached : front.byteLength ≤ place
          · rw [if_pos reached, List.countP_cons]
            simp [isTopLevelChar, topLevel]
          · rw [if_neg reached, beyond reached]

/-- The offsets at top level move with the text. -/
theorem topLevelFrom_shift (shift offset : Nat) (glyphs : List Glyph) :
    (topLevelFrom offset glyphs).map (shift + ·) = topLevelFrom (shift + offset) glyphs := by
  induction glyphs generalizing offset with
  | nil => rfl
  | cons glyph rest ih =>
      rw [topLevelFrom, topLevelFrom, Nat.add_assoc, ← ih]
      split
      · rw [List.map_append, List.map_add_range']
      · rfl

end Glyph

namespace Text

open Glyph

/-- Glyphs balance behind one that changes the depth as told. -/
theorem Balances.cons {depth deeper : Nat} {glyph : Glyph} {glyphs : List Glyph}
    (balances : Balances deeper glyphs)
    (step : deeper + (if glyph.isTopLevelChar ')' then 1 else 0) =
      depth + if glyph.isTopLevelChar '(' then 1 else 0) :
    Balances depth (glyph :: glyphs) := by
  refine ⟨fun n within => ?_, ?_⟩
  · cases n with
    | zero => exact Nat.zero_le _
    | succ n =>
        have never := balances.never n (Nat.le_of_succ_le_succ within)
        rw [List.take_succ_cons, opens_cons, closes_cons]
        omega
  · have even := balances.even
    rw [opens_cons, closes_cons]
    omega

/-- **Where the search for a closing parenthesis stops.** It stops at the first one after glyphs
that balance. -/
theorem splitClosing?_eq_some_iff {depth : Nat} {glyphs inner after : List Glyph} :
    splitClosing? depth glyphs = some (inner, after) ↔
      ∃ closing : Glyph, glyphs = inner ++ closing :: after ∧
        closing.isTopLevelChar ')' = true ∧ Balances depth inner := by
  constructor
  · intro found
    induction glyphs generalizing depth inner with
    | nil => cases depth <;> cases found
    | cons glyph rest ih =>
        simp only [splitClosing?] at found
        cases closes : glyph.isTopLevelChar ')' with
        | true =>
            have notOpening := not_opens_of_closes closes
            rw [if_pos closes] at found
            cases depth with
            | zero =>
                obtain ⟨rfl, rfl⟩ := Prod.mk.inj (Option.some.inj found)
                exact ⟨glyph, rfl, closes, fun n _ => by simp [Text.closes], rfl⟩
            | succ depth =>
                obtain ⟨⟨deeper, tail⟩, split, same⟩ := Option.map_eq_some_iff.mp found
                obtain ⟨rfl, rfl⟩ := Prod.mk.inj same
                obtain ⟨closing, rfl, last, balances⟩ := ih split
                exact ⟨closing, rfl, last,
                  balances.cons (by simp [closes, notOpening])⟩
        | false =>
            rw [if_neg (by simp [closes])] at found
            obtain ⟨⟨deeper, tail⟩, split, same⟩ := Option.map_eq_some_iff.mp found
            obtain ⟨rfl, rfl⟩ := Prod.mk.inj same
            obtain ⟨closing, rfl, last, balances⟩ := ih split
            refine ⟨closing, rfl, last, balances.cons ?_⟩
            rw [closes]
            split <;> rfl
  · rintro ⟨closing, rfl, last, balances⟩
    exact splitClosing?_of_balances balances last after

/-- Without a closing parenthesis, nothing that starts the glyphs closes more than it opens. -/
theorem splitClosing?_eq_none {depth : Nat} {glyphs front : List Glyph}
    (missed : splitClosing? depth glyphs = none) (leads : front <+: glyphs) :
    closes front ≤ depth + opens front := by
  induction front generalizing depth glyphs with
  | nil => exact Nat.zero_le _
  | cons glyph front ih =>
      obtain ⟨rest, rfl⟩ := leads
      simp only [List.cons_append, splitClosing?] at missed
      rw [opens_cons, closes_cons]
      cases closes : glyph.isTopLevelChar ')' with
      | true =>
          rw [if_pos closes] at missed
          cases depth with
          | zero => cases missed
          | succ depth =>
              have bound := ih (Option.map_eq_none_iff.mp missed) (List.prefix_append front rest)
              rw [if_pos rfl]
              omega
      | false =>
          rw [if_neg (by simp [closes])] at missed
          have bound := ih (Option.map_eq_none_iff.mp missed) (List.prefix_append front rest)
          rw [if_neg Bool.false_ne_true]
          split at bound
          case isTrue opening =>
            rw [if_pos opening]
            omega
          case isFalse opening =>
            rw [if_neg opening]
            omega

/-! ### The search by offsets -/

/-- The number of times a character stands at top level up to a byte offset, in a scan that starts
at another one. -/
def topLevelCount (text : Text) (start : Nat) (target : Char) (place : Nat) : Nat :=
  (text.topLevelPositions start).countP
    fun here => here ≤ place && text.charAt? here == some target

/-- The parentheses at top level up to a byte offset, and up to no earlier one, close more groups
than they open. -/
structure ClosesGroup (text : Text) (start place : Nat) : Prop where
  topLevel : place ∈ text.topLevelPositions start
  excess : text.topLevelCount start '(' place < text.topLevelCount start ')' place
  first : ∀ earlier ∈ text.topLevelPositions start, earlier < place →
    text.topLevelCount start ')' earlier ≤ text.topLevelCount start '(' earlier

/-- A group is closed in one place only. -/
theorem ClosesGroup.unique {text : Text} {start place other : Nat}
    (closes : text.ClosesGroup start place) (closesToo : text.ClosesGroup start other) :
    place = other := by
  rcases Nat.lt_trichotomy place other with before | same | after
  · exact absurd (closesToo.first place closes.topLevel before) (Nat.not_le.mpr closes.excess)
  · exact same
  · exact absurd (closes.first other closesToo.topLevel after) (Nat.not_le.mpr closesToo.excess)

/-- The characters at top level up to an offset are counted among the glyphs that start by it. -/
theorem topLevelCount_eq (front back : Text) (target : Char) (place : Nat) :
    (front ++ back).topLevelCount front.byteLength target place =
      (startedBy place front.byteLength back.scan).countP (·.isTopLevelChar target) := by
  rw [topLevelCount, topLevelPositions_append, ← countP_topLevelFrom, ofGlyphs_scan]

/-- What is known of the text inside a group, which ends at `place`: it is closed when it is read as
a text of its own, with the same offsets at top level, and its own parentheses balance. -/
structure IsGroup (text : Text) (start place : Nat) (content : Text) : Prop where
  split : ∃ before after, text = before ++ (content ++ ')' :: after) ∧
    before.byteLength = start ∧ (before ++ content).byteLength = place
  closed : content.endMode = .normal
  positions : (content.topLevelPositions 0).map (start + ·) =
    (text.topLevelPositions start).filter (· < place)
  balances : Balances 0 content.scan

/-- The parenthesis that the search finds, with the glyphs in front of it, which balance. -/
theorem exists_closing_of_splitParens? {back inner after : Text}
    (found : splitParens? back = some (inner, after)) :
    ∃ (passed rest : List Glyph) (closing : Glyph), back.scan = passed ++ closing :: rest ∧
      closing.isTopLevelChar ')' = true ∧ Balances 0 passed ∧ inner = ofGlyphs passed ∧
      after = ofGlyphs rest := by
  obtain ⟨⟨passed, rest⟩, closed, same⟩ := Option.map_eq_some_iff.mp found
  obtain ⟨rfl, rfl⟩ := Prod.mk.inj same
  obtain ⟨closing, split, last, balances⟩ := splitClosing?_eq_some_iff.mp closed
  exact ⟨passed, rest, closing, split, last, balances, rfl, rfl⟩

/-- A parenthesis that the search finds closes the group. -/
theorem closesGroup_of_splitParens? (front : Text) {back inner after : Text}
    (found : splitParens? back = some (inner, after)) :
    (front ++ back).ClosesGroup front.byteLength (front ++ inner).byteLength := by
  obtain ⟨passed, rest, closing, split, last, balances, rfl, _⟩ :=
    exists_closing_of_splitParens? found
  obtain ⟨_, _, plain, _⟩ := settles_of_isTopLevelChar inert_close split last
  have size : (front ++ ofGlyphs passed).byteLength =
      front.byteLength + (ofGlyphs passed).byteLength := byteLength_append _ _
  refine ⟨?_, ?_, fun earlier member before => ?_⟩
  · rw [topLevelPositions_append, split, topLevelFrom_append, plain, size]
    exact List.mem_append_right _ List.mem_cons_self
  · have even := balances.even
    rw [opens, closes, Nat.zero_add] at even
    rw [topLevelCount_eq, topLevelCount_eq, split, size, startedBy_at, List.countP_append,
      List.countP_append, even, List.countP_singleton, List.countP_singleton, if_pos last,
      if_neg (by simp [not_opens_of_closes last])]
    omega
  · rw [size] at before
    have within : startedBy earlier front.byteLength back.scan <+: passed := by
      rw [split]
      exact startedBy_before _ before
    obtain ⟨more, shape⟩ := within
    have never := balances.never (startedBy earlier front.byteLength back.scan).length (by
      rw [← shape, List.length_append]
      exact Nat.le_add_right _ _)
    rw [← shape, List.take_left, opens, closes, Nat.zero_add] at never
    rw [topLevelCount_eq, topLevelCount_eq]
    exact never

/-- The group is the text in front of the parenthesis that the search finds. -/
theorem isGroup_of_splitParens? (front : Text) {back inner after : Text}
    (found : splitParens? back = some (inner, after)) :
    (front ++ back).IsGroup front.byteLength (front ++ inner).byteLength inner := by
  obtain ⟨passed, rest, closing, split, last, balances, rfl, _⟩ :=
    exists_closing_of_splitParens? found
  obtain ⟨whole, read, _, settles⟩ := settles_of_isTopLevelChar inert_close split last
  -- The content is read in front of the parenthesis as it is on its own.
  obtain ⟨alone, aloneGlyphs⟩ := ScanState.after_alone settles
  have scanned : (ofGlyphs passed).scan = passed := by
    rw [scan_eq_glyphs, glyphs, aloneGlyphs]
    exact read.symm
  refine ⟨⟨front, ofGlyphs rest, by rw [whole], rfl, rfl⟩, ?_, ?_, ?_⟩
  · rw [endMode_eq, alone]
    exact settles.1
  · have own : (ofGlyphs passed).topLevelPositions 0 = topLevelFrom 0 passed := by
      rw [← scanned, ofGlyphs_scan]
      exact topLevelPositions_append [] (ofGlyphs passed)
    rw [own, topLevelFrom_shift, Nat.add_zero, topLevelPositions_append, split, byteLength_append,
      filter_topLevelFrom]
  · rw [scanned]
    exact balances

/-- Without a closing parenthesis no group is closed. -/
theorem not_closesGroup_of_splitParens? (front : Text) {back : Text}
    (missed : splitParens? back = none) (place : Nat) :
    ¬ (front ++ back).ClosesGroup front.byteLength place := by
  intro closed
  have excess := closed.excess
  have bound := splitClosing?_eq_none (Option.map_eq_none_iff.mp missed)
    (startedBy_isPrefix place front.byteLength back.scan)
  rw [topLevelCount_eq, topLevelCount_eq] at excess
  rw [opens, closes] at bound
  omega

/-- **Matching parentheses.** The group that an offset opens is found exactly where a parenthesis
closes it, and it runs up to there. Its text is closed and balanced when it is read on its own. -/
theorem parenSpan?_closes_group {text : Text} {opening : Nat}
    (boundary : (text.splitAtByte? (opening + 1)).isSome = true) :
    (∀ span, text.parenSpan? opening = some span ↔
      ∃ place, text.ClosesGroup (opening + 1) place ∧ span = ⟨opening + 1, place, place + 1⟩) ∧
    (∀ place, text.ClosesGroup (opening + 1) place →
      ∃ content, text.IsGroup (opening + 1) place content) ∧
    (text.parenSpan? opening = none ↔ ∀ place, ¬ text.ClosesGroup (opening + 1) place) := by
  obtain ⟨⟨front, back⟩, split⟩ := Option.isSome_iff_exists.mp boundary
  obtain ⟨rfl, size⟩ := splitAtByte?_eq_some_iff.mp split
  rw [parenSpan?, ← size, dropBytes_append]
  dsimp only
  cases found : splitParens? back with
  | none =>
      have nowhere := not_closesGroup_of_splitParens? front found
      rw [Option.map_none]
      refine ⟨fun span => ⟨fun same => ?_, ?_⟩, fun place closed => absurd closed (nowhere place),
        ⟨fun _ => nowhere, fun _ => rfl⟩⟩
      · cases same
      · rintro ⟨place, closed, _⟩
        exact absurd closed (nowhere place)
  | some parts =>
      obtain ⟨inner, after⟩ := parts
      have closed := closesGroup_of_splitParens? front found
      rw [Option.map_some]
      dsimp only
      rw [Nat.add_zero, ← byteLength_append]
      refine ⟨fun span => ⟨fun same => ?_, ?_⟩, fun place closedToo => ?_,
        ⟨fun missed => ?_, fun nowhere => absurd closed (nowhere _)⟩⟩
      · exact ⟨_, closed, (Option.some.inj same).symm⟩
      · rintro ⟨place, closedToo, rfl⟩
        rw [closedToo.unique closed]
      · rw [closedToo.unique closed]
        exact ⟨inner, isGroup_of_splitParens? front found⟩
      · cases missed

/-- Parentheses in a literal and in a comment close nothing. -/
theorem parenSpan?_closes_group_nested :
    (splitAtByte? "f(g(a), ')' /* ) */) + 1".toList (1 + 1)).isSome = true ∧
      ClosesGroup "f(g(a), ')' /* ) */) + 1".toList (1 + 1) 19 ∧
      (∃ content, IsGroup "f(g(a), ')' /* ) */) + 1".toList (1 + 1) 19 content) ∧
      parenSpan? "f(g(a), ')' /* ) */) + 1".toList 1 = some ⟨2, 19, 20⟩ := by
  have boundary : (splitAtByte? "f(g(a), ')' /* ) */) + 1".toList (1 + 1)).isSome = true := by
    decide
  have found : parenSpan? "f(g(a), ')' /* ) */) + 1".toList 1 = some ⟨2, 19, 20⟩ := by decide
  obtain ⟨spans, contents, _⟩ := parenSpan?_closes_group boundary
  obtain ⟨place, closed, same⟩ := (spans ⟨2, 19, 20⟩).mp found
  obtain rfl : 19 = place := congrArg ParenSpan.last same
  exact ⟨boundary, closed, contents 19 closed, found⟩

end Text

end RoutineScripts
