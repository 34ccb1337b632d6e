import RoutineScripts.Proofs.Lexical.Cut

/-!
# Structure at top level

A front of a text *settles* when the scan of the text is in plain mode at its end. The splits at a
top-level character and at a closing parenthesis are described by fronts that settle
(`Text.splitTopLevel?_eq_some_iff`), and therefore stay where they are when the text after them is
exchanged (`Text.splitTopLevel?_congr`, `Text.settles_of_splitParens?`).
-/

namespace RoutineScripts

/-- A character that opens and closes nothing and belongs to no identifier. -/
structure Inert (c : Char) : Prop where
  separates : isIdentifierChar c = false := by decide
  opensNothing : c ∉ ['-', '/', '$', '\'', '"'] := by decide
  closesNothing : c ∉ ['\'', '"', '\n', '\r'] := by decide

theorem inert_semicolon : Inert ';' := {}

theorem inert_point : Inert '.' := {}

theorem inert_open : Inert '(' := {}

theorem inert_close : Inert ')' := {}

namespace Text

/-- The scan is in plain mode at the end of `front`, when `back` follows. -/
def Settles (front back : Text) : Prop :=
  (ScanState.start.after front back).IsPlain

/-- The glyphs of `front`, when `back` follows. -/
def glyphs (front back : Text) : List Glyph :=
  ScanState.start.glyphs front back

/-- The text of two lists of glyphs is that of each. -/
theorem ofGlyphs_append (left right : List Glyph) :
    ofGlyphs (left ++ right) = ofGlyphs left ++ ofGlyphs right :=
  List.map_append

theorem settles_nil (back : Text) : Settles [] back :=
  ScanState.isPlain_start

/-- Behind a front that settles, a scan starts anew. -/
theorem Settles.scan_append {front back : Text} (settles : Settles front back) :
    scan (front ++ back) = glyphs front back ++ scan back := by
  have whole := ScanState.start.scan_append front back
  rw [settles.scan_eq] at whole
  exact whole

theorem Settles.append {front middle back : Text} (first : Settles front (middle ++ back))
    (second : Settles middle back) : Settles (front ++ middle) back := by
  rw [Settles, ScanState.after_append]
  exact (first.after_isPlain_iff middle back).mpr second

/-- What follows a settled front settles when the whole does. -/
theorem Settles.of_append {front middle back : Text}
    (first : Settles front (middle ++ back)) (whole : Settles (front ++ middle) back) :
    Settles middle back := by
  rw [Settles, ScanState.after_append] at whole
  exact (first.after_isPlain_iff middle back).mp whole

/-- Behind a front that settles, the glyphs start anew. -/
theorem Settles.glyphs_append {front middle back : Text} (first : Settles front (middle ++ back)) :
    glyphs (front ++ middle) back = glyphs front (middle ++ back) ++ glyphs middle back := by
  rw [glyphs, ScanState.glyphs_append, first.glyphs_eq]
  rfl

theorem Settles.congr {front back : Text} {z : Char} (settles : Settles front (z :: back))
    (separates : isIdentifierChar z = false) (other : Text) :
    Settles front (z :: other) ∧ glyphs front (z :: other) = glyphs front (z :: back) := by
  obtain ⟨states, same⟩ := ScanState.after_congr other separates settles
  refine ⟨?_, same⟩
  rw [Settles, states]
  exact settles

/-- A character that does not occur is nowhere at top level. -/
theorem isTopLevelChar_of_not_mem {target : Char} {front : Text} (absent : target ∉ front)
    (back : Text) : ∀ glyph ∈ glyphs front back, glyph.isTopLevelChar target = false := by
  intro glyph member
  rw [Bool.eq_false_iff]
  intro matched
  have inside : glyph.char ∈ ofGlyphs (glyphs front back) := List.mem_map_of_mem member
  rw [glyphs, ScanState.ofGlyphs_glyphs, Glyph.char_of_isTopLevelChar matched] at inside
  exact absent inside

/-- Plain characters settle. -/
theorem settles_of_plain {front : Text} (plain : ∀ c ∈ front, c ∉ ['-', '/', '$', '\'', '"'])
    (back : Text) : Settles front back := by
  induction front with
  | nil => exact settles_nil back
  | cons c front ih =>
      have stays : ScanState.start.next c (front ++ back) = ScanState.start :=
        (ScanState.next_of_isPlain ScanState.isPlain_start (plain c List.mem_cons_self) _).1
      rw [Settles, ScanState.after, stays]
      exact ih fun d member => plain d (List.mem_cons_of_mem _ member)

/-- A plain character is one glyph at top level. -/
theorem scan_cons_of_plain {c : Char} (opens : c ∉ ['-', '/', '$', '\'', '"']) (rest : Text) :
    scan (c :: rest) = ⟨c, .single, .normal, .normal⟩ :: scan rest := by
  have step := ScanState.next_of_isPlain ScanState.isPlain_start opens rest
  have cut := ScanState.start.scan_cons c rest
  rw [step.1, step.2] at cut
  exact cut

/-- A top-level glyph of a scan that closes nothing stands after a front that settles. -/
theorem settles_of_scan_eq {text : Text} {passed rest : List Glyph} {glyph : Glyph}
    (split : scan text = passed ++ glyph :: rest) (topLevel : glyph.isTopLevel = true)
    (closes : glyph.char ∉ ['\'', '"', '\n', '\r']) :
    text = ofGlyphs passed ++ glyph.char :: ofGlyphs rest ∧
      passed = glyphs (ofGlyphs passed) (glyph.char :: ofGlyphs rest) ∧
      Settles (ofGlyphs passed) (glyph.char :: ofGlyphs rest) := by
  have whole : text = ofGlyphs passed ++ glyph.char :: ofGlyphs rest := by
    rw [← ofGlyphs_scan text, split, ofGlyphs_append]
    rfl
  have cut := ScanState.start.scan_append (ofGlyphs passed) (glyph.char :: ofGlyphs rest)
  rw [← whole] at cut
  have parts := List.append_inj (split.symm.trans cut) (by simp [ofGlyphs])
  refine ⟨whole, parts.1, ?_⟩
  rw [ScanState.scan_cons] at parts
  have same := (List.cons.inj parts.2).1
  rw [same] at topLevel
  have proper : ScanState.start.mode.Proper := trivial
  exact ScanState.isPlain_of_isTopLevel (ScanState.proper_after proper _ _) topLevel closes

/-- A glyph that is an inert character at top level stands in plain text, after a front that
settles. -/
theorem settles_of_isTopLevelChar {target : Char} {text : Text} {passed rest : List Glyph}
    {glyph : Glyph} (inert : Inert target) (split : scan text = passed ++ glyph :: rest)
    (matched : glyph.isTopLevelChar target = true) :
    text = ofGlyphs passed ++ target :: ofGlyphs rest ∧
      passed = glyphs (ofGlyphs passed) (target :: ofGlyphs rest) ∧
      glyph = ⟨target, .single, .normal, .normal⟩ ∧
      Settles (ofGlyphs passed) (target :: ofGlyphs rest) := by
  have char := Glyph.char_of_isTopLevelChar matched
  have topLevel : glyph.isTopLevel = true := (Bool.and_eq_true_iff.mp matched).1
  have settled := settles_of_scan_eq split topLevel (char ▸ inert.closesNothing)
  rw [char] at settled
  obtain ⟨whole, same, settles⟩ := settled
  refine ⟨whole, same, ?_, settles⟩
  have cut := settles.scan_append
  rw [← whole, ← same, split, scan_cons_of_plain inert.opensNothing] at cut
  exact (List.cons.inj (List.append_cancel_left cut)).1

/-- The test by which a top-level character is looked for. -/
def topLevelTest (target : Char) : Option Glyph → List Glyph → Option Text
  | _, glyph :: rest => if glyph.isTopLevelChar target then some (ofGlyphs rest) else none
  | _, [] => none

/-- A text is split at a character by a search through its glyphs. -/
theorem splitTopLevel?_eq (target : Char) (text : Text) :
    splitTopLevel? target text =
      (search (topLevelTest target) none text.scan).map
        fun (passed, rest) => (ofGlyphs passed, rest) := by
  rw [splitTopLevel?]
  congr 2
  funext previous glyphs
  cases glyphs <;> rfl

/-- A search for a character passes over the glyphs that are not it. -/
theorem misses_topLevelTest_iff {target : Char} {previous : Option Glyph}
    {front back : List Glyph} :
    Misses (topLevelTest target) previous front back ↔
      ∀ glyph ∈ front, glyph.isTopLevelChar target = false := by
  induction front generalizing previous with
  | nil => simp [misses_nil]
  | cons glyph front ih =>
      rw [misses_cons, ih]
      simp [topLevelTest]

/-- **Splits at top level.** Before the first top-level occurrence of a character the text settles,
and the character is nowhere at top level. -/
theorem splitTopLevel?_eq_some_iff {target : Char} {text before after : Text}
    (inert : Inert target) :
    splitTopLevel? target text = some (before, after) ↔
      text = before ++ target :: after ∧ Settles before (target :: after) ∧
        ∀ glyph ∈ glyphs before (target :: after), glyph.isTopLevelChar target = false := by
  simp only [splitTopLevel?_eq, Option.map_eq_some_iff, Prod.exists, Prod.mk.injEq,
    search_eq_some_iff, misses_topLevelTest_iff]
  constructor
  · rintro ⟨passed, found, ⟨rest, split, none, accepted⟩, rfl, rfl⟩
    cases rest with
    | nil => cases accepted
    | cons glyph rest =>
        by_cases matched : glyph.isTopLevelChar target = true
        · simp only [topLevelTest, matched, if_true, Option.some.injEq] at accepted
          subst accepted
          obtain ⟨whole, same, _, settles⟩ := settles_of_isTopLevelChar inert split matched
          exact ⟨whole, settles, same ▸ none⟩
        · simp [topLevelTest, matched] at accepted
  · rintro ⟨rfl, settles, none⟩
    refine ⟨glyphs before (target :: after), after, ⟨scan (target :: after),
      settles.scan_append, none, ?_⟩, ScanState.ofGlyphs_glyphs _ _ _, rfl⟩
    rw [scan_cons_of_plain inert.opensNothing]
    simp [topLevelTest, Glyph.isTopLevelChar, Glyph.isTopLevel]

/-- What follows a top-level character has no part in finding it. -/
theorem splitTopLevel?_congr {target : Char} {text before after : Text} (inert : Inert target)
    (found : splitTopLevel? target text = some (before, after)) (other : Text) :
    splitTopLevel? target (before ++ target :: other) = some (before, other) := by
  obtain ⟨_, settles, none⟩ := (splitTopLevel?_eq_some_iff inert).mp found
  obtain ⟨again, same⟩ := settles.congr inert.separates other
  exact (splitTopLevel?_eq_some_iff inert).mpr ⟨rfl, again, same ▸ none⟩

/-- A front that settles and does not hold the character at top level is passed over. -/
theorem splitTopLevel?_append {target : Char} {front back : Text} (settles : Settles front back)
    (none : ∀ glyph ∈ glyphs front back, glyph.isTopLevelChar target = false) :
    splitTopLevel? target (front ++ back) =
      (splitTopLevel? target back).map fun (before, after) => (front ++ before, after) := by
  have ignores (first second : Option Glyph) (list : List Glyph) :
      topLevelTest target first list = topLevelTest target second list := by
    cases list <;> rfl
  rw [splitTopLevel?_eq, splitTopLevel?_eq, settles.scan_append,
    search_append (misses_topLevelTest_iff.mpr none), Option.map_map, Option.map_map,
    search_previous ignores _ Option.none]
  congr 1
  funext found
  exact congrArg (·, found.2) (by
    rw [ofGlyphs_append, glyphs, ScanState.ofGlyphs_glyphs])

/-- A closing parenthesis is found whatever follows it. -/
theorem splitClosing?_congr {depth : Nat} {glyphs inner after : List Glyph}
    (found : splitClosing? depth glyphs = some (inner, after)) :
    ∃ closing : Glyph, glyphs = inner ++ closing :: after ∧ closing.isTopLevelChar ')' = true ∧
      ∀ other, splitClosing? depth (inner ++ closing :: other) = some (inner, other) := by
  induction glyphs generalizing depth inner with
  | nil => cases depth <;> cases found
  | cons glyph rest ih =>
      by_cases closes : glyph.isTopLevelChar ')' = true
      · cases depth with
        | zero =>
            simp only [splitClosing?, closes, if_true, Option.some.injEq, Prod.mk.injEq] at found
            obtain ⟨rfl, rfl⟩ := found
            exact ⟨glyph, rfl, closes, fun other => by simp [splitClosing?, closes]⟩
        | succ depth =>
            simp only [splitClosing?, closes, if_true, Option.map_eq_some_iff, Prod.exists,
              Prod.mk.injEq] at found
            obtain ⟨deeper, tail, closed, rfl, rfl⟩ := found
            obtain ⟨closing, rfl, last, again⟩ := ih closed
            exact ⟨closing, rfl, last, fun other => by simp [splitClosing?, closes, again other]⟩
      · simp only [splitClosing?, closes, Bool.false_eq_true, if_false, Option.map_eq_some_iff,
          Prod.exists, Prod.mk.injEq] at found
        obtain ⟨deeper, tail, closed, rfl, rfl⟩ := found
        obtain ⟨closing, rfl, last, again⟩ := ih closed
        exact ⟨closing, rfl, last, fun other => by simp [splitClosing?, closes, again other]⟩

/-- The text up to a closing parenthesis settles, and what follows it has no part in finding it. -/
theorem settles_of_splitParens? {text inner after : Text}
    (found : splitParens? text = some (inner, after)) :
    Settles inner (')' :: after) ∧
      ∀ other, splitParens? (inner ++ ')' :: other) = some (inner, other) := by
  simp only [splitParens?, Option.map_eq_some_iff, Prod.exists, Prod.mk.injEq] at found
  obtain ⟨passed, rest, closed, rfl, rfl⟩ := found
  obtain ⟨closing, split, last, again⟩ := splitClosing?_congr closed
  obtain ⟨_, same, plain, settles⟩ := settles_of_isTopLevelChar inert_close split last
  refine ⟨settles, fun other => ?_⟩
  obtain ⟨elsewhere, glyphsSame⟩ := settles.congr inert_close.separates other
  rw [splitParens?, elsewhere.scan_append, glyphsSame, ← same,
    scan_cons_of_plain inert_close.opensNothing, ← plain, again, Option.map_some]
  simp only [ofGlyphs_scan]

end Text

end RoutineScripts
