import RoutineScripts.Lexical.Scan
import RoutineScripts.Proofs.Text.Recogniser
import RoutineScripts.Proofs.Text.Search

/-!
# Cutting a scan

The scan of a text looks ahead: at a dollar sign as far as the tag goes, inside a dollar-quoted
span as far as its tag is long. A `ScanState` is what a scan carries from one character to the
next, and `ScanState.after` is the state at the end of a front when a given back follows.

Where the state is plain again, the scan of the back is a scan of its own (`Text.scan_append`).
There the front is also read in the same way whatever follows, as long as the first character that
follows stays the same and is no identifier character (`ScanState.after_congr`). So the many scans
of parts that start in plain mode all agree with the scan of the whole.
-/

namespace RoutineScripts

/-- A dollar tag: identifier characters between two dollar signs. -/
def IsDollarTag (tag : Text) : Prop :=
  ∃ name : Text, tag = '$' :: (name ++ ['$']) ∧ ∀ c ∈ name, isIdentifierChar c = true

/-- A dollar tag is a dollar sign, identifier characters and another dollar sign. -/
theorem dollarTag?_cons (c : Char) (rest : Text) :
    dollarTag? (c :: rest) =
      if c = '$' ∧ (rest.dropWhile isIdentifierChar).head? = some '$' then
        some ('$' :: (rest.takeWhile isIdentifierChar ++ ['$']))
      else none := by
  by_cases dollar : c = '$'
  · subst dollar
    cases closing : rest.dropWhile isIdentifierChar with
    | nil => simp [dollarTag?, closing]
    | cons d tail => by_cases same : d = '$' <;> simp [dollarTag?, closing, same]
  · simp [dollarTag?, dollar]

/-- A dollar tag is read when the text starts with one. -/
theorem dollarTag?_eq_some_iff {text tag : Text} :
    dollarTag? text = some tag ↔ IsDollarTag tag ∧ ∃ rest, text = tag ++ rest := by
  constructor
  · intro found
    refine ⟨?_, exists_append_of_dollarTag? found⟩
    cases text with
    | nil => cases found
    | cons c rest =>
        rw [dollarTag?_cons] at found
        split at found
        · cases found
          exact ⟨_, rfl, List.all_eq_true.mp List.all_takeWhile⟩
        · cases found
  · rintro ⟨⟨name, rfl, identifiers⟩, rest, rfl⟩
    have stops : ¬ isIdentifierChar '$' = true := by decide
    rw [List.cons_append, dollarTag?_cons, List.append_assoc,
      List.takeWhile_append_of_pos identifiers, List.dropWhile_append_of_pos identifiers,
      List.singleton_append, List.takeWhile_cons_of_neg stops, List.dropWhile_cons_of_neg stops,
      List.append_nil]
    simp

theorem IsDollarTag.ne_nil {tag : Text} (isTag : IsDollarTag tag) : tag ≠ [] := by
  obtain ⟨name, rfl, _⟩ := isTag
  exact List.cons_ne_nil _ _

/-- A tag at the front of a text ends at the latest where a character follows that belongs to no
identifier. -/
theorem dollarTag?_congr {c z : Char} (front back other : Text)
    (separates : isIdentifierChar z = false) :
    dollarTag? (c :: (front ++ z :: other)) = dollarTag? (c :: (front ++ z :: back)) := by
  have dropped (tail : Text) : ((front ++ z :: tail).dropWhile isIdentifierChar).head? =
      (front.dropWhile isIdentifierChar ++ [z]).head? := by
    rw [Text.dropWhile_append_cons separates]
    cases front.dropWhile isIdentifierChar <;> rfl
  rw [dollarTag?_cons, dollarTag?_cons, Text.takeWhile_append_cons separates,
    Text.takeWhile_append_cons separates, dropped other, dropped back]

namespace Mode

/-- A mode that a scan can be in: a dollar-quoted span has a tag. -/
def Proper : Mode → Prop
  | dollarQuoted tag => IsDollarTag tag
  | _ => True

/-- Every transition from a proper mode leads to a proper mode. -/
theorem proper_advance {mode : Mode} (proper : mode.Proper) (c : Char) (rest : Text) :
    (mode.advance c rest).mode.Proper := by
  cases mode <;> simp only [advance]
  case normal =>
    split
    · trivial
    split
    · trivial
    split
    case h_1 tag found => exact (dollarTag?_eq_some_iff.mp found).1
    case h_2 =>
      split
      · trivial
      split <;> trivial
  case singleQuoted =>
    split
    · split <;> trivial
    · trivial
  all_goals split <;> trivial

/-- Outside dollar-quoted spans the scan looks ahead no further than the first character that
belongs to no identifier. -/
theorem advance_congr {mode : Mode} {c z : Char} (front back other : Text)
    (separates : isIdentifierChar z = false) (unquoted : ∀ tag, mode ≠ dollarQuoted tag) :
    mode.advance c (front ++ z :: other) = mode.advance c (front ++ z :: back) := by
  have heads : (front ++ z :: other).head? = (front ++ z :: back).head? := by
    cases front <;> rfl
  cases mode with
  | dollarQuoted tag => exact absurd rfl (unquoted tag)
  | _ => simp only [advance, heads, dollarTag?_congr front back other separates]

end Mode

/-- What a scan carries from one character to the next: it went from `before` into `mode`, and the
next `pending` characters still belong to that transition. -/
structure ScanState where
  before : Mode
  mode : Mode
  pending : Nat

namespace ScanState

/-- The state in which a scan starts. -/
def start : ScanState := ⟨.normal, .normal, 0⟩

/-- A state of plain text between two transitions. -/
def IsPlain (state : ScanState) : Prop :=
  state.mode = .normal ∧ state.pending = 0

/-- The scan starts in plain text. -/
theorem isPlain_start : start.IsPlain :=
  ⟨rfl, rfl⟩

/-- The state after the character `c`, which `rest` follows. -/
def next (state : ScanState) (c : Char) (rest : Text) : ScanState :=
  match state.pending with
  | pending + 1 => ⟨state.before, state.mode, pending⟩
  | 0 =>
      let step := state.mode.advance c rest
      ⟨state.mode, step.mode, step.skip - 1⟩

/-- The glyph of the character `c`, which `rest` follows. -/
def glyph (state : ScanState) (c : Char) (rest : Text) : Glyph :=
  match state.pending with
  | _ + 1 => ⟨c, .later, state.before, state.mode⟩
  | 0 =>
      let step := state.mode.advance c rest
      ⟨c, if step.skip = 0 then .single else .lead step.skip, state.mode, step.mode⟩

/-- The state after a text, which `back` follows. -/
def after (state : ScanState) : Text → Text → ScanState
  | [], _ => state
  | c :: front, back => (state.next c (front ++ back)).after front back

/-- The glyphs of a text, which `back` follows. -/
def glyphs (state : ScanState) : Text → Text → List Glyph
  | [], _ => []
  | c :: front, back =>
      state.glyph c (front ++ back) :: (state.next c (front ++ back)).glyphs front back

/-- The scan of a text from this state. -/
def scan (state : ScanState) (text : Text) : List Glyph :=
  Text.scanFrom state.before state.mode state.pending text

theorem scan_nil (state : ScanState) : state.scan [] = [] := by
  obtain ⟨before, mode, pending⟩ := state
  cases pending <;> rfl

theorem scan_cons (state : ScanState) (c : Char) (rest : Text) :
    state.scan (c :: rest) = state.glyph c rest :: (state.next c rest).scan rest := by
  obtain ⟨before, mode, pending⟩ := state
  cases pending <;> rfl

/-- **A scan can be cut anywhere.** -/
theorem scan_append (state : ScanState) (front back : Text) :
    state.scan (front ++ back) = state.glyphs front back ++ (state.after front back).scan back := by
  induction front generalizing state with
  | nil => rfl
  | cons c front ih => rw [List.cons_append, scan_cons, ih, glyphs, after, List.cons_append]

/-- The state after two parts is reached one part after the other. -/
theorem after_append (state : ScanState) (front middle back : Text) :
    state.after (front ++ middle) back =
      (state.after front (middle ++ back)).after middle back := by
  induction front generalizing state with
  | nil => rfl
  | cons c front ih => rw [List.cons_append, after, after, ih, List.append_assoc]

/-- The glyphs of two parts are those of each, what follows included. -/
theorem glyphs_append (state : ScanState) (front middle back : Text) :
    state.glyphs (front ++ middle) back =
      state.glyphs front (middle ++ back)
        ++ (state.after front (middle ++ back)).glyphs middle back := by
  induction front generalizing state with
  | nil => rfl
  | cons c front ih =>
      rw [List.cons_append, glyphs, glyphs, after, ih, List.append_assoc, List.cons_append]

/-- A glyph keeps its character. -/
@[simp]
theorem glyph_char (state : ScanState) (c : Char) (rest : Text) :
    (state.glyph c rest).char = c := by
  obtain ⟨before, mode, pending⟩ := state
  cases pending <;> rfl

/-- The glyphs of a part spell it. -/
@[simp]
theorem ofGlyphs_glyphs (state : ScanState) (front back : Text) :
    Text.ofGlyphs (state.glyphs front back) = front := by
  induction front generalizing state with
  | nil => rfl
  | cons c front ih =>
      have inner := ih (state.next c (front ++ back))
      rw [Text.ofGlyphs] at inner ⊢
      rw [glyphs, List.map_cons, glyph_char, inner]

/-- A part has as many glyphs as characters. -/
@[simp]
theorem length_glyphs (state : ScanState) (front back : Text) :
    (state.glyphs front back).length = front.length := by
  have chars := congrArg List.length (state.ofGlyphs_glyphs front back)
  simpa [Text.ofGlyphs] using chars

/-- Characters that still belong to a transition are passed over. -/
theorem after_of_length_le (state : ScanState) {front : Text} (back : Text)
    (within : front.length ≤ state.pending) :
    state.after front back = ⟨state.before, state.mode, state.pending - front.length⟩ := by
  induction front generalizing state with
  | nil => rfl
  | cons c front ih =>
      obtain ⟨before, mode, pending⟩ := state
      cases pending with
      | zero => simp at within
      | succ pending =>
          rw [List.length_cons] at within ⊢
          rw [after, next, ih _ (by simpa using within)]
          simp

/-- A dollar-quoted span is not closed by fewer characters than its tag has. -/
theorem not_isPlain_of_length_lt {before : Mode} {tag front : Text} (back : Text)
    (short : front.length < tag.length) :
    ¬ (ScanState.after ⟨before, .dollarQuoted tag, 0⟩ front back).IsPlain := by
  induction front generalizing before with
  | nil =>
      rintro ⟨plain, _⟩
      cases plain
  | cons c front ih =>
      rw [List.length_cons] at short
      simp only [after, next, Mode.advance]
      by_cases closes : tag.isPrefixOf (c :: (front ++ back)) = true
      · rw [if_pos closes, after_of_length_le _ _ (by simp only; omega)]
        rintro ⟨_, none⟩
        simp only at none
        omega
      · rw [if_neg closes]
        exact ih (by omega)

/-- A tag closes a span in the same place whatever follows, when the span is closed before that. -/
theorem isPrefixOf_congr {before : Mode} {tag front back : Text} {c : Char} (other : Text)
    (plain : (ScanState.after ⟨before, .dollarQuoted tag, 0⟩ (c :: front) back).IsPlain) :
    tag.isPrefixOf (c :: (front ++ other)) = tag.isPrefixOf (c :: (front ++ back)) := by
  have covered : tag.length ≤ (c :: front).length := by
    apply Nat.le_of_not_lt
    intro short
    exact not_isPlain_of_length_lt back short plain
  have short (tail : Text) :
      tag.isPrefixOf (c :: (front ++ tail)) = tag.isPrefixOf (c :: front) := by
    rw [Bool.eq_iff_iff, List.isPrefixOf_iff_prefix, List.isPrefixOf_iff_prefix]
    constructor
    · intro whole
      exact List.prefix_of_prefix_length_le whole (List.prefix_append (c :: front) tail) covered
    · intro part
      exact part.trans (List.prefix_append (c :: front) tail)
  rw [short, short]

/-- **Look-ahead stops at a separator.** A front that leaves the scan in plain text is read in the
same way whatever follows the separator after it. -/
theorem after_congr {state : ScanState} {front back : Text} {z : Char} (other : Text)
    (separates : isIdentifierChar z = false)
    (plain : (state.after front (z :: back)).IsPlain) :
    state.after front (z :: other) = state.after front (z :: back) ∧
      state.glyphs front (z :: other) = state.glyphs front (z :: back) := by
  induction front generalizing state with
  | nil => exact ⟨rfl, rfl⟩
  | cons c front ih =>
      obtain ⟨before, mode, pending⟩ := state
      have same : ScanState.next ⟨before, mode, pending⟩ c (front ++ z :: other) =
            ScanState.next ⟨before, mode, pending⟩ c (front ++ z :: back) ∧
          ScanState.glyph ⟨before, mode, pending⟩ c (front ++ z :: other) =
            ScanState.glyph ⟨before, mode, pending⟩ c (front ++ z :: back) := by
        cases pending with
        | succ pending => exact ⟨rfl, rfl⟩
        | zero =>
            have step : mode.advance c (front ++ z :: other) =
                mode.advance c (front ++ z :: back) := by
              by_cases quoted : ∃ tag, mode = .dollarQuoted tag
              · obtain ⟨tag, rfl⟩ := quoted
                rw [Mode.advance, Mode.advance, isPrefixOf_congr (z :: other) plain]
              · exact Mode.advance_congr front back other separates
                  fun tag equal => quoted ⟨tag, equal⟩
            exact ⟨by simp only [next, step], by simp only [glyph, step]⟩
      rw [after] at plain
      obtain ⟨states, rest⟩ := ih plain
      rw [after, after, glyphs, glyphs, same.1, same.2, states, rest]
      exact ⟨rfl, rfl⟩

/-- The scan of plain text does not remember where it came from. -/
theorem IsPlain.scan_eq {state : ScanState} (plain : state.IsPlain) (text : Text) :
    state.scan text = text.scan := by
  obtain ⟨before, mode, pending⟩ := state
  obtain ⟨rfl, rfl⟩ : mode = .normal ∧ pending = 0 := plain
  cases text <;> rfl

/-- From plain text on, the glyphs are those of a scan that starts there. -/
theorem IsPlain.glyphs_eq {state : ScanState} (plain : state.IsPlain) (front back : Text) :
    state.glyphs front back = start.glyphs front back := by
  obtain ⟨before, mode, pending⟩ := state
  obtain ⟨rfl, rfl⟩ : mode = .normal ∧ pending = 0 := plain
  cases front <;> rfl

/-- From plain text on, a scan ends in plain text when one that starts there does. -/
theorem IsPlain.after_isPlain_iff {state : ScanState} (plain : state.IsPlain) (front back : Text) :
    (state.after front back).IsPlain ↔ (start.after front back).IsPlain := by
  obtain ⟨before, mode, pending⟩ := state
  obtain ⟨rfl, rfl⟩ : mode = .normal ∧ pending = 0 := plain
  cases front <;> rfl

/-- A proper mode stays proper over a whole part. -/
theorem proper_after {state : ScanState} (proper : state.mode.Proper) (front back : Text) :
    (state.after front back).mode.Proper := by
  induction front generalizing state with
  | nil => exact proper
  | cons c front ih =>
      apply ih
      obtain ⟨before, mode, pending⟩ := state
      cases pending with
      | zero => exact Mode.proper_advance proper c (front ++ back)
      | succ pending => exact proper

/-- A plain character keeps the scan in plain text. -/
theorem next_of_isPlain {state : ScanState} {c : Char} (plain : state.IsPlain)
    (opens : c ∉ ['-', '/', '$', '\'', '"']) (rest : Text) :
    state.next c rest = start ∧ state.glyph c rest = ⟨c, .single, .normal, .normal⟩ := by
  obtain ⟨before, mode, pending⟩ := state
  obtain ⟨rfl, rfl⟩ : mode = .normal ∧ pending = 0 := plain
  simp only [List.mem_cons, List.not_mem_nil, or_false, not_or] at opens
  have step : Mode.normal.advance c rest = ⟨.normal, 0⟩ := by
    simp [Mode.advance, dollarTag?_cons, opens]
  simp [next, glyph, step, start]

/-- A top-level character that closes nothing stands in plain text. -/
theorem isPlain_of_isTopLevel {state : ScanState} (proper : state.mode.Proper) {c : Char}
    {rest : Text} (topLevel : (state.glyph c rest).isTopLevel = true)
    (closes : c ∉ ['\'', '"', '\n', '\r']) : state.IsPlain := by
  obtain ⟨before, mode, pending⟩ := state
  simp only [List.mem_cons, List.not_mem_nil, or_false, not_or] at closes
  cases pending with
  | succ pending => simp [glyph, Glyph.isTopLevel] at topLevel
  | zero =>
      refine ⟨?_, rfl⟩
      cases mode with
      | normal => rfl
      | dollarQuoted tag =>
          have long : tag.length ≠ 0 := by
            simpa using IsDollarTag.ne_nil proper
          by_cases closing : tag.isPrefixOf (c :: rest) = true
          · simp [glyph, Glyph.isTopLevel, Mode.advance, closing, long] at topLevel
          · simp [glyph, Glyph.isTopLevel, Mode.advance, closing] at topLevel
      | _ =>
          simp only [glyph, Glyph.isTopLevel, Mode.advance] at topLevel
          split at topLevel <;> simp_all

/-- No glyph of a delimiter that is being passed is at top level. -/
theorem isTopLevel_of_pending {state : ScanState} {front back : Text}
    (within : front.length ≤ state.pending) :
    ∀ glyph ∈ state.glyphs front back, glyph.isTopLevel = false := by
  induction front generalizing state with
  | nil => simp [glyphs]
  | cons c front ih =>
      obtain ⟨before, mode, pending⟩ := state
      cases pending with
      | zero => simp at within
      | succ pending =>
          intro glyph member
          rcases List.mem_cons.mp member with rfl | later
          · rfl
          · exact ih (by simpa [next] using within) glyph later

/-- A transition that takes several characters together passes over them, and none of them is at
top level. -/
theorem after_of_advance (before : Mode) {mode next : Mode} {c : Char} {front back : Text}
    (step : mode.advance c (front ++ back) = ⟨next, front.length + 1⟩) :
    ScanState.after ⟨before, mode, 0⟩ (c :: front) back = ⟨mode, next, 0⟩ ∧
      ∀ glyph ∈ ScanState.glyphs ⟨before, mode, 0⟩ (c :: front) back,
        glyph.isTopLevel = false := by
  have moved : ScanState.next ⟨before, mode, 0⟩ c (front ++ back) = ⟨mode, next, front.length⟩ := by
    simp [ScanState.next, step]
  constructor
  · rw [after, moved, after_of_length_le _ _ (Nat.le_refl _), Nat.sub_self]
  · intro glyph member
    rcases List.mem_cons.mp member with rfl | later
    · simp [ScanState.glyph, step, Glyph.isTopLevel]
    · rw [moved] at later
      exact isTopLevel_of_pending (Nat.le_refl _) glyph later

/-- A dollar-quoted span goes on up to its tag. -/
theorem after_content (before : Mode) {tag content back : Text}
    (first : Text.FirstAfter tag content (content ++ back)) :
    (ScanState.after ⟨before, .dollarQuoted tag, 0⟩ content back).mode = .dollarQuoted tag ∧
      (ScanState.after ⟨before, .dollarQuoted tag, 0⟩ content back).pending = 0 ∧
      ∀ glyph ∈ ScanState.glyphs ⟨before, .dollarQuoted tag, 0⟩ content back,
        glyph.isTopLevel = false := by
  induction content generalizing before with
  | nil => exact ⟨rfl, rfl, by simp [glyphs]⟩
  | cons c content ih =>
      obtain ⟨refused, later⟩ := Text.firstAfter_cons.mp
        (show Text.FirstAfter tag (c :: content) (c :: (content ++ back)) from first)
      have continues : ¬ tag.isPrefixOf (c :: (content ++ back)) = true := by
        rw [List.isPrefixOf_iff_prefix]
        rintro ⟨rest, split⟩
        rw [← split, Text.afterLead?_append] at refused
        cases refused
      have step : Mode.advance (.dollarQuoted tag) c (content ++ back) =
          ⟨.dollarQuoted tag, 0⟩ := by
        rw [Mode.advance, if_neg continues]
      have moved : ScanState.next ⟨before, .dollarQuoted tag, 0⟩ c (content ++ back) =
          ⟨.dollarQuoted tag, .dollarQuoted tag, 0⟩ := by
        simp [ScanState.next, step]
      obtain ⟨mode, pending, inside⟩ := ih (.dollarQuoted tag) later
      rw [after, moved]
      refine ⟨mode, pending, fun glyph member => ?_⟩
      rcases List.mem_cons.mp member with rfl | rest
      · simp [ScanState.glyph, step, Glyph.isTopLevel]
      · rw [moved] at rest
        exact inside glyph rest

end ScanState

end RoutineScripts
