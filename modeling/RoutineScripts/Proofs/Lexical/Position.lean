import RoutineScripts.Lexical.Position
import RoutineScripts.Proofs.Lexical.Structure
import RoutineScripts.Proofs.Text.Offset

/-!
# Positions at top level

The top-level byte offsets of a scan are increasing (`Text.sorted_topLevelPositions`), and a
character stands at one of them exactly where its glyph is at top level
(`Glyph.exists_of_mem_topLevelFrom`, `Text.mem_topLevelPositions_of_settles`). So the search for a
top-level character is the search through the list of these offsets
(`Text.findTopLevel?_eq_find?`).
-/

namespace RoutineScripts

namespace Glyph

/-- The offsets at top level of two lists of glyphs are those of each. -/
theorem topLevelFrom_append (offset : Nat) (front back : List Glyph) :
    topLevelFrom offset (front ++ back) =
      topLevelFrom offset front
        ++ topLevelFrom (offset + (Text.ofGlyphs front).byteLength) back := by
  induction front generalizing offset with
  | nil => rfl
  | cons glyph front ih =>
      have shift : offset + (Text.ofGlyphs (glyph :: front)).byteLength =
          offset + glyph.char.utf8Size + (Text.ofGlyphs front).byteLength := by
        simp only [Text.ofGlyphs, List.map_cons, Text.byteLength_cons]
        omega
      rw [List.cons_append, topLevelFrom, topLevelFrom, ih, shift]
      split <;> simp

/-- An offset at top level lies within the bytes of the glyphs. -/
theorem bounds_of_mem_topLevelFrom {offset place : Nat} {glyphs : List Glyph}
    (member : place ∈ topLevelFrom offset glyphs) :
    offset ≤ place ∧ place < offset + (Text.ofGlyphs glyphs).byteLength := by
  induction glyphs generalizing offset with
  | nil => cases member
  | cons glyph rest ih =>
      have size : (Text.ofGlyphs (glyph :: rest)).byteLength =
          glyph.char.utf8Size + (Text.ofGlyphs rest).byteLength := rfl
      rw [topLevelFrom] at member
      split at member
      case isTrue =>
        rcases List.mem_append.mp member with here | later
        · have inside := List.mem_range'_1.mp here
          omega
        · have inside := ih later
          omega
      case isFalse =>
        have inside := ih member
        omega

/-- The offsets at top level before the place that some glyphs end at are those of these glyphs. -/
theorem filter_topLevelFrom (offset : Nat) (front back : List Glyph) :
    (topLevelFrom offset (front ++ back)).filter
        (· < offset + (Text.ofGlyphs front).byteLength) =
      topLevelFrom offset front := by
  have inside (place : Nat) (member : place ∈ topLevelFrom offset front) :
      place < offset + (Text.ofGlyphs front).byteLength :=
    (bounds_of_mem_topLevelFrom member).2
  have beyond (place : Nat)
      (member : place ∈ topLevelFrom (offset + (Text.ofGlyphs front).byteLength) back) :
      ¬ place < offset + (Text.ofGlyphs front).byteLength :=
    Nat.not_lt.mpr (bounds_of_mem_topLevelFrom member).1
  rw [topLevelFrom_append, List.filter_append, List.filter_eq_self.mpr (by simpa using inside),
    List.filter_eq_nil_iff.mpr (by simpa using beyond), List.append_nil]

/-- The offsets at top level increase. -/
theorem sorted_topLevelFrom (offset : Nat) (glyphs : List Glyph) :
    (topLevelFrom offset glyphs).Pairwise (· < ·) := by
  induction glyphs generalizing offset with
  | nil => exact List.Pairwise.nil
  | cons glyph rest ih =>
      rw [topLevelFrom]
      split
      case isTrue =>
        refine List.pairwise_append.mpr ⟨List.pairwise_lt_range', ih _, ?_⟩
        intro place here later member
        have inside := List.mem_range'_1.mp here
        have beyond := (bounds_of_mem_topLevelFrom member).1
        omega
      case isFalse => exact ih _

/-- No character stands at the bytes of a character after its first one. -/
theorem charAt?_of_mem_range' {front back : Text} {c : Char} {place : Nat}
    (member : place ∈ List.range' (front.byteLength + 1) (c.utf8Size - 1)) :
    (front ++ c :: back).charAt? place = none := by
  have inside := List.mem_range'_1.mp member
  obtain ⟨inner, rfl⟩ : ∃ inner, place = front.byteLength + inner :=
    ⟨place - front.byteLength, by omega⟩
  exact Text.charAt?_inside front back (by omega) (by omega)

/-- The offsets of a character are its first one and those inside it. -/
theorem range'_utf8Size (offset : Nat) (c : Char) :
    List.range' offset c.utf8Size = offset :: List.range' (offset + 1) (c.utf8Size - 1) := by
  obtain ⟨size, whole⟩ := Nat.exists_eq_add_one.mpr c.utf8Size_pos
  rw [whole]
  rfl

/-- **A character at a top-level offset has a glyph at top level.** -/
theorem exists_of_mem_topLevelFrom {front : Text} {glyphs : List Glyph} {place : Nat} {c : Char}
    (member : place ∈ topLevelFrom front.byteLength glyphs)
    (stands : (front ++ Text.ofGlyphs glyphs).charAt? place = some c) :
    ∃ passed glyph rest, glyphs = passed ++ glyph :: rest ∧ glyph.isTopLevel = true ∧
      place = (front ++ Text.ofGlyphs passed).byteLength := by
  induction glyphs generalizing front with
  | nil => cases member
  | cons glyph rest ih =>
      have whole : front ++ Text.ofGlyphs (glyph :: rest) =
          front ++ [glyph.char] ++ Text.ofGlyphs rest := by
        simp [Text.ofGlyphs]
      have size : (front ++ [glyph.char]).byteLength = front.byteLength + glyph.char.utf8Size := by
        simp
      have later : place ∈ topLevelFrom (front ++ [glyph.char]).byteLength rest →
          ∃ passed other more, glyph :: rest = passed ++ other :: more ∧
            other.isTopLevel = true ∧ place = (front ++ Text.ofGlyphs passed).byteLength := by
        intro beyond
        obtain ⟨passed, other, more, rfl, topLevel, same⟩ := ih beyond (whole ▸ stands)
        refine ⟨glyph :: passed, other, more, rfl, topLevel, ?_⟩
        rw [same]
        simp [Text.ofGlyphs]
      rw [topLevelFrom, ← size] at member
      split at member
      case isTrue topLevel =>
        rcases List.mem_append.mp member with here | beyond
        · rw [range'_utf8Size] at here
          rcases List.mem_cons.mp here with rfl | inside
          · exact ⟨[], glyph, rest, rfl, topLevel, by simp [Text.ofGlyphs]⟩
          · have nothing : (front ++ Text.ofGlyphs (glyph :: rest)).charAt? place = none :=
              charAt?_of_mem_range' inside
            rw [nothing] at stands
            cases stands
        · exact later beyond
      case isFalse => exact later member

end Glyph

namespace Text

/-- From a boundary on, the offsets at top level are those of the scan of the rest. -/
theorem topLevelPositions_append (front back : Text) :
    (front ++ back).topLevelPositions front.byteLength =
      Glyph.topLevelFrom front.byteLength back.scan := by
  rw [topLevelPositions, dropBytes_append]
  simp

/-- The offsets at top level of a text increase. -/
theorem sorted_topLevelPositions (text : Text) (start : Nat) :
    (text.topLevelPositions start).Pairwise (· < ·) := by
  rw [topLevelPositions]
  refine List.pairwise_append.mpr ⟨List.pairwise_lt_range', Glyph.sorted_topLevelFrom _ _, ?_⟩
  intro place here later member
  have inside := List.mem_range'_1.mp here
  have beyond := (Glyph.bounds_of_mem_topLevelFrom member).1
  omega

/-- A member of an increasing list is met before any larger one. -/
theorem mem_takeWhile_iff {places : List Nat} (sorted : places.Pairwise (· < ·)) (offset : Nat) :
    offset ∈ places.takeWhile (· ≤ offset) ↔ offset ∈ places := by
  constructor
  · exact fun member => (List.takeWhile_sublist _).subset member
  · intro member
    induction places with
    | nil => exact member
    | cons place places ih =>
        rcases List.mem_cons.mp member with rfl | later
        · rw [List.takeWhile_cons_of_pos (by simp)]
          exact List.mem_cons_self
        · have before := List.rel_of_pairwise_cons sorted later
          rw [List.takeWhile_cons_of_pos (by simpa using Nat.le_of_lt before)]
          exact List.mem_cons_of_mem _ (ih (List.Pairwise.of_cons sorted) later)

/-- An offset is at top level exactly when it is one of the offsets listed. -/
theorem isTopLevelAt_iff (text : Text) (offset : Nat) :
    text.isTopLevelAt offset = true ↔ offset ∈ text.topLevelPositions 0 := by
  rw [isTopLevelAt, List.any_beq', List.contains_iff_mem]
  exact mem_takeWhile_iff (sorted_topLevelPositions text 0) offset

/-- No offset at top level is before the start. -/
theorem le_of_mem_topLevelPositions {text : Text} {start place : Nat}
    (member : place ∈ text.topLevelPositions start) : start ≤ place := by
  rw [topLevelPositions] at member
  rcases List.mem_append.mp member with cut | later
  · exact (List.mem_range'_1.mp cut).1
  · have inside := (Glyph.bounds_of_mem_topLevelFrom later).1
    omega

/-- **A scan can be restarted.** Where a front settles, the offsets of a scan that goes on are those
of a scan that starts there. -/
theorem topLevelPositions_of_settles {front back : Text} (settles : Settles front back)
    (before : Text) :
    (before ++ (front ++ back)).topLevelPositions before.byteLength =
      Glyph.topLevelFrom before.byteLength (glyphs front back)
        ++ (before ++ (front ++ back)).topLevelPositions (before ++ front).byteLength := by
  have later := topLevelPositions_append (before ++ front) back
  rw [List.append_assoc] at later
  rw [topLevelPositions_append, settles.scan_append, Glyph.topLevelFrom_append, later, glyphs,
    ScanState.ofGlyphs_glyphs, byteLength_append]

/-- A character that opens nothing is at top level where the text before it settles. -/
theorem mem_topLevelPositions_of_settles (before : Text) {front back : Text} {c : Char}
    (opens : c ∉ ['-', '/', '$', '\'', '"']) (settles : Settles front (c :: back)) :
    (before ++ front).byteLength ∈
      (before ++ (front ++ c :: back)).topLevelPositions before.byteLength := by
  rw [topLevelPositions_of_settles settles]
  refine List.mem_append_right _ ?_
  rw [← List.append_assoc, topLevelPositions_append, scan_cons_of_plain opens, Glyph.topLevelFrom,
    if_pos (by simp [Glyph.isTopLevel]), Glyph.range'_utf8Size]
  exact List.mem_append_left _ List.mem_cons_self

/-- The first offset at top level with a character is found by a search through the glyphs. -/
theorem find?_topLevelFrom (target : Char) (previous : Option Glyph) (front : Text)
    (glyphs : List Glyph) :
    (Glyph.topLevelFrom front.byteLength glyphs).find?
        (fun place => (front ++ ofGlyphs glyphs).charAt? place == some target) =
      (search (topLevelTest target) previous glyphs).map
        fun (passed, _) => (front ++ ofGlyphs passed).byteLength := by
  induction glyphs generalizing front previous with
  | nil => rfl
  | cons glyph rest ih =>
      have whole : front ++ ofGlyphs (glyph :: rest) =
          front ++ [glyph.char] ++ ofGlyphs rest := by
        simp [ofGlyphs]
      have size : front.byteLength + glyph.char.utf8Size =
          (front ++ [glyph.char]).byteLength := by
        simp
      have later := ih (some glyph) (front ++ [glyph.char])
      rw [← whole] at later
      have first : (front ++ ofGlyphs (glyph :: rest)).charAt? front.byteLength =
          some glyph.char :=
        charAt?_append front _
      have others : (List.range' (front.byteLength + 1) (glyph.char.utf8Size - 1)).find?
          (fun place => (front ++ ofGlyphs (glyph :: rest)).charAt? place == some target) =
            none := by
        refine List.find?_eq_none.mpr fun place inside => ?_
        have nothing : (front ++ ofGlyphs (glyph :: rest)).charAt? place = none :=
          Glyph.charAt?_of_mem_range' inside
        simp [nothing]
      rw [Glyph.topLevelFrom, size, search]
      by_cases topLevel : glyph.isTopLevel = true
      · rw [if_pos topLevel, Glyph.range'_utf8Size, List.cons_append, List.find?_cons, first,
          List.find?_append, others, Option.none_or, later]
        by_cases same : glyph.char = target
        · simp [topLevelTest, Glyph.isTopLevelChar, topLevel, same, ofGlyphs]
        · have differs : (glyph.char == target) = false := beq_eq_false_iff_ne.mpr same
          simp [topLevelTest, Glyph.isTopLevelChar, topLevel, differs, ofGlyphs,
            Function.comp_def]
      · rw [if_neg topLevel, later]
        simp [topLevelTest, Glyph.isTopLevelChar, topLevel, ofGlyphs, Function.comp_def]

/-- **A search at top level goes through the top-level offsets.** -/
theorem findTopLevel?_eq_find? (front back : Text) (target : Char) :
    (front ++ back).findTopLevel? target front.byteLength =
      ((front ++ back).topLevelPositions front.byteLength).find?
        fun place => (front ++ back).charAt? place == some target := by
  have found := find?_topLevelFrom target none front back.scan
  rw [ofGlyphs_scan] at found
  rw [topLevelPositions_append, found, findTopLevel?, dropBytes_append]
  simp only [splitTopLevel?_eq, Option.map_map]
  congr 1
  funext parts
  simp

/-- In an increasing list, what passes a test comes after the first that does. -/
theorem le_of_find? {test : Nat → Bool} {list : List Nat} {first other : Nat}
    (sorted : list.Pairwise (· < ·)) (found : list.find? test = some first)
    (member : other ∈ list) (passes : test other = true) : first ≤ other := by
  obtain ⟨_, front, back, rfl, none⟩ := List.find?_eq_some_iff_append.mp found
  rcases List.mem_append.mp member with early | late
  · have refused := none other early
    simp [passes] at refused
  · rcases List.mem_cons.mp late with rfl | later
    · exact Nat.le_refl _
    · exact Nat.le_of_lt (List.rel_of_pairwise_cons (List.pairwise_append.mp sorted).2.1 later)

end Text

end RoutineScripts
