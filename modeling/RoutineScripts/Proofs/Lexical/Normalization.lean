import RoutineScripts.Proofs.Lexical.Structure
import RoutineScripts.Proofs.Text.Normalization

/-!
# Scanning a normalised text

The scan of a normalised text is the scan of the text with the glyphs of each `\r\n` as one
(`Text.scan_normalize`). A line break opens and closes nothing but a line comment, and both
characters of `\r\n` do that alike (`Mode.advance_break`); no delimiter holds a line break, so the
look-ahead sees the same (`Mode.advance_normalize`).

Splits at top level are walks over glyphs that carry a state and stop where a test is passed. A walk
whose test nothing passes at a line break stops at the same place of a normalised text
(`Glyph.walk_normalize`), so every split stays where it is (`Text.splitTopLevel?_normalize`,
`Text.splitParens?_normalize`).
-/

namespace RoutineScripts

/-- No identifier character breaks a line. -/
theorem visible_of_isIdentifierChar {c : Char} (identifier : isIdentifierChar c = true) :
    isBreak c = false := by
  rw [Bool.eq_false_iff]
  intro breaks
  obtain rfl | rfl := eq_of_isBreak breaks <;> revert identifier <;> decide

theorem IsDollarTag.visible {tag : Text} (isTag : IsDollarTag tag) :
    ∀ c ∈ tag, isBreak c = false := by
  obtain ⟨name, rfl, identifiers⟩ := isTag
  intro c member
  simp only [List.mem_cons, List.mem_append, List.not_mem_nil, or_false] at member
  rcases member with rfl | inName | rfl
  · decide
  · exact visible_of_isIdentifierChar (identifiers c inName)
  · decide

theorem dollarTag?_normalize (text : Text) : dollarTag? text.normalize = dollarTag? text := by
  have visible : isBreak '$' = false := rfl
  cases text with
  | nil => rfl
  | cons c rest =>
      by_cases dollar : c = '$'
      · subst dollar
        have alike : isIdentifierChar '\r' = isIdentifierChar '\n' := by decide
        have name : Text.normalize (rest.takeWhile isIdentifierChar) =
            rest.takeWhile isIdentifierChar := by
          refine Text.normalize_of_visible fun d member => visible_of_isIdentifierChar ?_
          exact List.all_eq_true.mp List.all_takeWhile d member
        rw [Text.normalize_cons rfl, dollarTag?_cons, dollarTag?_cons,
          Text.dropWhile_normalize alike, Text.takeWhile_normalize alike, name]
        simp only [Text.head?_normalize_eq_some_iff visible]
      · have heads := Text.head?_normalize_eq_some_iff visible (c :: rest)
        have refused : dollarTag? (c :: rest) = none := by simp [dollarTag?_cons, dollar]
        rw [refused]
        cases shape : Text.normalize (c :: rest) with
        | nil => rfl
        | cons d tail =>
            rw [shape] at heads
            have differs : d ≠ '$' := by
              rintro rfl
              exact dollar (Option.some.inj (heads.mp rfl))
            simp [dollarTag?_cons, differs]

namespace Mode

/-- The mode after a line break. -/
def afterBreak : Mode → Mode
  | lineComment => normal
  | mode => mode

/-- A second line break changes no mode. -/
theorem afterBreak_afterBreak (mode : Mode) : mode.afterBreak.afterBreak = mode.afterBreak := by
  cases mode <;> rfl

/-- A line break keeps a mode proper. -/
theorem proper_afterBreak {mode : Mode} (proper : mode.Proper) : mode.afterBreak.Proper := by
  cases mode <;> exact proper

/-- **Line breaks end line comments only.** -/
theorem advance_break {mode : Mode} (proper : mode.Proper) {c : Char} (breaks : isBreak c = true)
    (rest : Text) : mode.advance c rest = ⟨mode.afterBreak, 0⟩ := by
  have either := eq_of_isBreak breaks
  have opens : c ≠ '-' ∧ c ≠ '/' ∧ c ≠ '$' ∧ c ≠ '\'' ∧ c ≠ '"' ∧ c ≠ '*' := by
    rcases either with rfl | rfl <;> decide
  cases mode with
  | dollarQuoted tag =>
      have goesOn : ¬ tag.isPrefixOf (c :: rest) = true := by
        obtain ⟨name, rfl, _⟩ := proper
        simp [Ne.symm opens.2.2.1]
      rw [advance, if_neg goesOn]
      rfl
  | lineComment => simp [advance, either, afterBreak]
  | _ => simp [advance, dollarTag?_cons, opens, afterBreak]

/-- **Delimiters hold no line break.** So the look-ahead does not tell the kinds of line breaks
apart. -/
theorem advance_normalize {mode : Mode} (proper : mode.Proper) {c : Char}
    (visible : isBreak c = false) (rest : Text) :
    mode.advance c rest.normalize = mode.advance c rest := by
  have heads (z : Char) (shown : isBreak z = false) :
      rest.normalize.head? = some z ↔ rest.head? = some z :=
    Text.head?_normalize_eq_some_iff shown rest
  have tags := dollarTag?_normalize (c :: rest)
  rw [Text.normalize_cons visible] at tags
  cases mode with
  | normal => simp only [advance, heads '-' rfl, heads '*' rfl, tags]
  | lineComment => rfl
  | blockComment => simp only [advance, heads '/' rfl]
  | singleQuoted => simp only [advance, heads '\'' rfl]
  | doubleQuoted => rfl
  | dollarQuoted tag =>
      have closing := Text.isPrefixOf_normalize (IsDollarTag.visible proper) (c :: rest)
      rw [Text.normalize_cons visible] at closing
      simp only [advance, closing]

/-- A scan does not look ahead to a line break where the next character is none. -/
theorem visible_of_head? {rest : Text} {z : Char} (head : rest.head? = some z)
    (shown : isBreak z = false) : ∀ d ∈ rest.take 1, isBreak d = false := by
  cases rest with
  | nil => simp
  | cons c rest =>
      cases head
      simpa using shown

/-- The characters of a delimiter that is ahead break no line. -/
theorem visible_of_isPrefixOf {tag rest : Text} {c : Char} (isTag : IsDollarTag tag)
    (covered : tag <+: c :: rest) : ∀ d ∈ rest.take (tag.length - 1), isBreak d = false := by
  obtain ⟨back, split⟩ := covered
  intro d member
  apply isTag.visible
  cases tag with
  | nil => simp at member
  | cons z others =>
      obtain ⟨_, rfl⟩ := List.cons.inj split
      simpa using Or.inr member

/-- The characters that a transition takes together after the first one are no line breaks. -/
theorem visible_of_advance {mode : Mode} (proper : mode.Proper) (c : Char) (rest : Text) :
    ∀ d ∈ rest.take ((mode.advance c rest).skip - 1), isBreak d = false := by
  cases mode with
  | normal =>
      simp only [advance]
      split
      case isTrue dashes => exact visible_of_head? dashes.2 (by decide)
      split
      case isTrue opening => exact visible_of_head? opening.2 (by decide)
      split
      case h_1 tag found =>
        obtain ⟨isTag, back, shape⟩ := dollarTag?_eq_some_iff.mp found
        exact visible_of_isPrefixOf isTag ⟨back, shape.symm⟩
      case h_2 =>
        split
        · simp
        split <;> simp
  | lineComment =>
      simp only [advance]
      split <;> simp
  | blockComment =>
      simp only [advance]
      split
      case isTrue closing => exact visible_of_head? closing.2 (by decide)
      case isFalse => simp
  | singleQuoted =>
      simp only [advance]
      split
      · split
        case isTrue doubled => exact visible_of_head? doubled (by decide)
        case isFalse => simp
      · simp
  | doubleQuoted =>
      simp only [advance]
      split <;> simp
  | dollarQuoted tag =>
      simp only [advance]
      split
      case isTrue closing =>
        exact visible_of_isPrefixOf proper (List.isPrefixOf_iff_prefix.mp closing)
      case isFalse => simp

end Mode

namespace Glyph

/-- A glyph of a line break as one of `\n`. -/
def unify (glyph : Glyph) : Glyph :=
  { glyph with char := if glyph.char = '\r' then '\n' else glyph.char }

/-- The glyphs of a scan with those of each `\r\n` as one. -/
def normalizeAll : List Glyph → List Glyph
  | [] => []
  | [glyph] => [glyph.unify]
  | first :: second :: rest =>
      if first.char = '\r' ∧ second.char = '\n' then first.unify :: normalizeAll rest
      else first.unify :: normalizeAll (second :: rest)

/-- A glyph is not the first of a `\r\n`. -/
def Lone (glyph : Glyph) (rest : List Glyph) : Prop :=
  ∀ next ∈ rest.head?, ¬ (glyph.char = '\r' ∧ next.char = '\n')

theorem normalizeAll_cons {glyph : Glyph} {rest : List Glyph} (lone : glyph.Lone rest) :
    normalizeAll (glyph :: rest) = glyph.unify :: normalizeAll rest := by
  cases rest with
  | nil => rfl
  | cons next rest => rw [normalizeAll, if_neg (lone next rfl)]

/-- Of a pair, only the first glyph is kept. -/
theorem normalizeAll_pair {first second : Glyph} (isReturn : first.char = '\r')
    (isFeed : second.char = '\n') (rest : List Glyph) :
    normalizeAll (first :: second :: rest) = first.unify :: normalizeAll rest := by
  rw [normalizeAll, if_pos ⟨isReturn, isFeed⟩]

/-- A glyph is alone in front of a shorter list too. -/
theorem Lone.of_append {glyph : Glyph} {front back : List Glyph}
    (lone : glyph.Lone (front ++ back)) : glyph.Lone front := by
  intro next head
  refine lone next ?_
  rw [Option.mem_def] at head ⊢
  rw [List.head?_append, head, Option.some_or]

/-- Induction over glyphs that takes the two of a `\r\n` together. -/
@[elab_as_elim]
theorem pairInduction {motive : List Glyph → Prop} (nil : motive [])
    (pair : ∀ first second rest, first.char = '\r' → second.char = '\n' → motive rest →
      motive (first :: second :: rest))
    (cons : ∀ glyph rest, glyph.Lone rest → motive rest → motive (glyph :: rest))
    (glyphs : List Glyph) : motive glyphs := by
  induction glyphs using normalizeAll.induct with
  | case1 => exact nil
  | case2 glyph => exact cons glyph [] (by simp [Lone]) nil
  | case3 first second rest both ih => exact pair first second rest both.1 both.2 ih
  | case4 first second rest apart ih =>
      exact cons first (second :: rest) (fun next head => by cases head; exact apart) ih

/-- A visible glyph is kept. -/
theorem unify_of_visible {glyph : Glyph} (visible : isBreak glyph.char = false) :
    glyph.unify = glyph := by
  rw [unify, if_neg (Text.ne_return_of_visible visible)]

/-- Unifying a glyph keeps which visible character it is at top level. -/
theorem unify_isTopLevelChar (glyph : Glyph) {target : Char} (visible : isBreak target = false) :
    glyph.unify.isTopLevelChar target = glyph.isTopLevelChar target := by
  by_cases isReturn : glyph.char = '\r'
  · have feed := beq_eq_false_iff_ne.mpr (Ne.symm (Text.ne_newline_of_visible visible))
    have return' := beq_eq_false_iff_ne.mpr (Ne.symm (Text.ne_return_of_visible visible))
    simp [isTopLevelChar, unify, isReturn, feed, return']
  · simp [isTopLevelChar, unify, isReturn]

/-- A line break is no visible character at top level. -/
theorem isTopLevelChar_of_isBreak {glyph : Glyph} (breaks : isBreak glyph.char = true)
    {target : Char} (visible : isBreak target = false) : glyph.isTopLevelChar target = false := by
  rw [Bool.eq_false_iff]
  intro matched
  rw [char_of_isTopLevelChar matched, visible] at breaks
  cases breaks

/-- A line break is unified to a line break. -/
theorem isBreak_unify {glyph : Glyph} (breaks : isBreak glyph.char = true) :
    isBreak glyph.unify.char = true := by
  rw [unify]
  split
  · rfl
  · exact breaks

/-- Normalizing glyphs normalizes their text. -/
theorem ofGlyphs_normalizeAll (glyphs : List Glyph) :
    Text.ofGlyphs (normalizeAll glyphs) = (Text.ofGlyphs glyphs).normalize := by
  induction glyphs using pairInduction with
  | nil => rfl
  | pair first second rest isReturn isFeed ih =>
      rw [normalizeAll_pair isReturn isFeed]
      rw [Text.ofGlyphs] at ih ⊢
      simp only [Text.ofGlyphs, List.map_cons, ih, isReturn, isFeed, Text.normalize, unify, if_true]
  | cons glyph rest lone ih =>
      have alone : ∀ tail, glyph.char = '\r' → rest.map Glyph.char = '\n' :: tail → False := by
        intro tail isReturn shape
        obtain ⟨next, others, rfl, isFeed, _⟩ := List.map_eq_cons_iff.mp shape
        exact lone next rfl ⟨isReturn, isFeed⟩
      rw [normalizeAll_cons lone]
      rw [Text.ofGlyphs] at ih ⊢
      simp only [Text.ofGlyphs, List.map_cons, ih, Text.normalize.eq_3 _ _ alone]
      rfl

end Glyph

namespace ScanState

/-- Between two transitions, the mode alone decides how a text is scanned. -/
theorem scan_of_mode (first second mode : Mode) (text : Text) :
    scan ⟨first, mode, 0⟩ text = scan ⟨second, mode, 0⟩ text := by
  cases text <;> rfl

theorem scan_break (before : Mode) {mode : Mode} (proper : mode.Proper) {c : Char}
    (breaks : isBreak c = true) (rest : Text) :
    scan ⟨before, mode, 0⟩ (c :: rest) =
      ⟨c, .single, mode, mode.afterBreak⟩ :: scan ⟨mode, mode.afterBreak, 0⟩ rest := by
  have step := Mode.advance_break proper breaks rest
  rw [scan_cons]
  simp [glyph, next, step]

/-- A character that starts no pair has a glyph that starts none. -/
theorem lone_scan {glyph : Glyph} {rest : Text}
    (lone : ∀ tail, glyph.char = '\r' → rest = '\n' :: tail → False) (state : ScanState) :
    glyph.Lone (state.scan rest) := by
  rintro next head ⟨isReturn, isFeed⟩
  cases rest with
  | nil =>
      rw [scan_nil] at head
      cases head
  | cons d rest =>
      rw [scan_cons] at head
      cases head
      rw [glyph_char] at isFeed
      exact lone rest isReturn (by rw [isFeed])

/-- **A scan ignores the kind of line breaks.** -/
theorem scan_normalize {state : ScanState} {text : Text} (proper : state.mode.Proper)
    (ahead : ∀ c ∈ text.take state.pending, isBreak c = false) :
    state.scan text.normalize = Glyph.normalizeAll (state.scan text) := by
  have feeds : isBreak '\n' = true := rfl
  induction text using Text.normalize.induct generalizing state with
  | case1 =>
      rw [Text.normalize, scan_nil]
      rfl
  | case2 rest ih =>
      obtain ⟨before, mode, pending⟩ := state
      obtain rfl : pending = 0 := by
        cases pending with
        | zero => rfl
        | succ pending => cases ahead '\r' (by simp)
      have further := Mode.proper_afterBreak proper
      have later : scan ⟨mode.afterBreak, mode.afterBreak, 0⟩ (Text.normalize rest) = _ :=
        ih further (by simp)
      rw [Text.normalize, scan_break before proper feeds, scan_break before proper rfl,
        scan_break mode further feeds, Glyph.normalizeAll_pair rfl rfl, Mode.afterBreak_afterBreak,
        ← later, scan_of_mode mode mode.afterBreak]
      rfl
  | case3 c rest lone ih =>
      have apart {glyph : Glyph} (same : glyph.char = c) (state : ScanState) :=
        lone_scan (same.symm ▸ lone) state
      obtain ⟨before, mode, pending⟩ := state
      by_cases breaks : isBreak c = true
      · obtain rfl : pending = 0 := by
          cases pending with
          | zero => rfl
          | succ pending =>
              rw [ahead c (by simp)] at breaks
              cases breaks
        have further := Mode.proper_afterBreak proper
        have unified : isBreak (if c = '\r' then '\n' else c) = true := by
          split
          · exact feeds
          · exact breaks
        have later : scan ⟨mode, mode.afterBreak, 0⟩ (Text.normalize rest) = _ :=
          ih further (by simp)
        rw [Text.normalize.eq_3 _ _ lone, scan_break before proper unified,
          scan_break before proper breaks, Glyph.normalizeAll_cons (apart rfl _), later]
        rfl
      · have visible : isBreak c = false := by simpa using breaks
        rw [Text.normalize_cons visible, scan_cons, scan_cons,
          Glyph.normalizeAll_cons (apart (glyph_char ..) _),
          Glyph.unify_of_visible (by rwa [glyph_char])]
        have step := Mode.advance_normalize proper visible rest
        have sameGlyph : glyph ⟨before, mode, pending⟩ c (Text.normalize rest) =
            glyph ⟨before, mode, pending⟩ c rest := by
          simp only [glyph, step]
        have sameNext : next ⟨before, mode, pending⟩ c (Text.normalize rest) =
            next ⟨before, mode, pending⟩ c rest := by
          simp only [next, step]
        rw [sameGlyph, sameNext]
        refine congrArg _ (ih ?_ ?_)
        · cases pending with
          | zero => exact Mode.proper_advance proper c rest
          | succ pending => exact proper
        · cases pending with
          | zero => exact Mode.visible_of_advance proper c rest
          | succ pending =>
              rw [List.take_succ_cons, List.forall_mem_cons] at ahead
              exact ahead.2

end ScanState

namespace Glyph

section Walk

variable {σ β : Type} {step : σ → Glyph → σ} {test : σ → List Glyph → Option β}

/-- Leftmost search in glyphs that carries a state from one to the next. -/
def walk (step : σ → Glyph → σ) (test : σ → List Glyph → Option β) :
    σ → List Glyph → Option (List Glyph × β)
  | _, [] => none
  | state, glyph :: rest =>
      match test state (glyph :: rest) with
      | some found => some ([], found)
      | none => (walk step test (step state glyph) rest).map fun (passed, found) =>
          (glyph :: passed, found)

/-- A walk goes on past a glyph that the test refuses. -/
theorem walk_of_refused {state : σ} {glyph : Glyph} {rest : List Glyph}
    (refused : test state (glyph :: rest) = none) :
    walk step test state (glyph :: rest) =
      (walk step test (step state glyph) rest).map fun (passed, found) =>
        (glyph :: passed, found) := by
  rw [walk, refused]

/-- What a walk passes over and what it finds make up the glyphs. -/
theorem eq_append_of_walk {state : σ} {glyphs passed : List Glyph} {found : β}
    (result : walk step test state glyphs = some (passed, found)) :
    ∃ rest reached, glyphs = passed ++ rest ∧ test reached rest = some found := by
  induction glyphs generalizing state passed with
  | nil => cases result
  | cons glyph rest ih =>
      rw [walk] at result
      split at result
      case h_1 value accepted =>
        cases result
        exact ⟨glyph :: rest, state, rfl, accepted⟩
      case h_2 =>
        simp only [Option.map_eq_some_iff, Prod.exists, Prod.mk.injEq] at result
        obtain ⟨later, value, foundLater, rfl, rfl⟩ := result
        obtain ⟨tail, reached, rfl, accepted⟩ := ih foundLater
        exact ⟨tail, reached, rfl, accepted⟩

/-- **Walks ignore the kind of line breaks.** The test is passed at no line break, finds the same at
a visible character of normalised glyphs, and the states of the two walks stay related. -/
theorem walk_normalize {related : σ → σ → Prop} {convert : β → β}
    (refuses : ∀ state glyph rest, isBreak glyph.char = true → test state (glyph :: rest) = none)
    (agrees : ∀ state other glyph rest, related state other → isBreak glyph.char = false →
      test other (glyph :: normalizeAll rest) = (test state (glyph :: rest)).map convert)
    (steps : ∀ state other glyph, related state other →
      related (step state glyph) (step other glyph.unify))
    (pairs : ∀ state other first second, related state other → first.char = '\r' →
      second.char = '\n' → related (step (step state first) second) (step other first.unify))
    (glyphs : List Glyph) {state other : σ} (start : related state other) :
    walk step test other (normalizeAll glyphs) =
      (walk step test state glyphs).map fun (passed, found) =>
        (normalizeAll passed, convert found) := by
  induction glyphs using pairInduction generalizing state other with
  | nil => rfl
  | pair first second rest isReturn isFeed ih =>
      have breaks : isBreak first.char = true := by rw [isReturn]; rfl
      rw [normalizeAll_pair isReturn isFeed, walk_of_refused (refuses _ _ _ (isBreak_unify breaks)),
        walk_of_refused (refuses _ _ _ breaks),
        walk_of_refused (refuses _ second rest (by rw [isFeed]; rfl)),
        ih (pairs state other first second start isReturn isFeed)]
      simp only [Option.map_map]
      congr 1
      funext found
      simp [normalizeAll_pair isReturn isFeed]
  | cons glyph rest lone ih =>
      have later : (walk step test (step state glyph) rest).map (fun (passed, found) =>
          (normalizeAll (glyph :: passed), convert found)) =
            (walk step test (step other glyph.unify) (normalizeAll rest)).map
              fun (passed, found) => (glyph.unify :: passed, found) := by
        rw [ih (steps state other glyph start)]
        cases walked : walk step test (step state glyph) rest with
        | none => rfl
        | some result =>
            obtain ⟨tail, _, shape, _⟩ := eq_append_of_walk walked
            rw [shape] at lone
            simp [normalizeAll_cons lone.of_append]
      rw [normalizeAll_cons lone]
      by_cases breaks : isBreak glyph.char = true
      · rw [walk_of_refused (refuses _ _ _ (isBreak_unify breaks)),
          walk_of_refused (refuses _ _ _ breaks), ← later, Option.map_map]
        rfl
      · have visible : isBreak glyph.char = false := by simpa using breaks
        have here := agrees state other glyph rest start visible
        rw [unify_of_visible visible] at later ⊢
        cases found : test state (glyph :: rest) with
        | some value =>
            rw [found] at here
            rw [walk, here, walk, found]
            rfl
        | none =>
            rw [found] at here
            rw [walk_of_refused here, walk_of_refused found, ← later, Option.map_map]
            rfl

end Walk

end Glyph

namespace Text

/-- **The glyphs of a normalised text.** -/
theorem scan_normalize (text : Text) : text.normalize.scan = Glyph.normalizeAll text.scan := by
  have proper : ScanState.start.mode.Proper := trivial
  exact ScanState.scan_normalize proper (by simp [ScanState.start])

/-- A search for a top-level character is a walk without a state. -/
theorem splitTopLevel?_eq_walk (target : Char) (text : Text) :
    splitTopLevel? target text =
      (Glyph.walk (fun (_ : Unit) _ => ()) (fun _ => topLevelTest target none) () text.scan).map
        fun (passed, rest) => (ofGlyphs passed, rest) := by
  have anywhere (previous : Option Glyph) (glyphs : List Glyph) :
      search (topLevelTest target) previous glyphs =
        Glyph.walk (fun (_ : Unit) _ => ()) (fun _ => topLevelTest target none) () glyphs := by
    induction glyphs generalizing previous with
    | nil => rfl
    | cons glyph rest ih =>
        have alike : topLevelTest target previous (glyph :: rest) =
            topLevelTest target none (glyph :: rest) := rfl
        cases accepted : topLevelTest target none (glyph :: rest) <;>
          simp only [search, alike, Glyph.walk, accepted, ih]
  rw [splitTopLevel?_eq, anywhere]

/-- **Splits at top level ignore the kind of line breaks.** -/
theorem splitTopLevel?_normalize {target : Char} (visible : isBreak target = false) (text : Text) :
    splitTopLevel? target text.normalize =
      (splitTopLevel? target text).map fun (before, after) =>
        (normalize before, normalize after) := by
  have refuses (_ : Unit) (glyph : Glyph) (rest : List Glyph)
      (breaks : isBreak glyph.char = true) : topLevelTest target none (glyph :: rest) = none := by
    rw [topLevelTest, Glyph.isTopLevelChar_of_isBreak breaks visible]
    rfl
  have agrees (_ _ : Unit) (glyph : Glyph) (rest : List Glyph) (_ : True)
      (_ : isBreak glyph.char = false) :
      topLevelTest target none (glyph :: Glyph.normalizeAll rest) =
        (topLevelTest target none (glyph :: rest)).map normalize := by
    rw [topLevelTest, topLevelTest, Glyph.ofGlyphs_normalizeAll]
    split <;> rfl
  rw [splitTopLevel?_eq_walk, scan_normalize,
    Glyph.walk_normalize refuses agrees (fun _ _ _ _ => trivial) (fun _ _ _ _ _ _ _ => trivial)
      text.scan trivial, splitTopLevel?_eq_walk, Option.map_map, Option.map_map]
  congr 1
  funext found
  exact congrArg (·, _) (Glyph.ofGlyphs_normalizeAll found.1)

/-- The number of open parentheses after a glyph. -/
def depthAfter (depth : Nat) (glyph : Glyph) : Nat :=
  if glyph.isTopLevelChar ')' then depth - 1
  else if glyph.isTopLevelChar '(' then depth + 1
  else depth

/-- Unifying a glyph keeps how it changes the depth. -/
theorem depthAfter_unify (depth : Nat) (glyph : Glyph) :
    depthAfter depth glyph.unify = depthAfter depth glyph := by
  rw [depthAfter, depthAfter, glyph.unify_isTopLevelChar (show isBreak ')' = false from rfl),
    glyph.unify_isTopLevelChar (show isBreak '(' = false from rfl)]

theorem depthAfter_break (depth : Nat) {glyph : Glyph} (breaks : isBreak glyph.char = true) :
    depthAfter depth glyph = depth := by
  have closes := Glyph.isTopLevelChar_of_isBreak breaks (show isBreak ')' = false from rfl)
  have opens := Glyph.isTopLevelChar_of_isBreak breaks (show isBreak '(' = false from rfl)
  simp [depthAfter, closes, opens]

/-- The test by which a closing parenthesis is looked for. -/
def closingTest (depth : Nat) : List Glyph → Option (List Glyph)
  | [] => none
  | glyph :: rest => if glyph.isTopLevelChar ')' ∧ depth = 0 then some rest else none

/-- The closing parenthesis is found by a walk that counts the depth. -/
theorem splitClosing?_eq_walk (depth : Nat) (glyphs : List Glyph) :
    splitClosing? depth glyphs = Glyph.walk depthAfter closingTest depth glyphs := by
  induction glyphs generalizing depth with
  | nil => rfl
  | cons glyph rest ih =>
      cases closes : glyph.isTopLevelChar ')' with
      | false => simp [splitClosing?, Glyph.walk, closingTest, depthAfter, closes, ih]
      | true =>
          cases depth <;> simp [splitClosing?, Glyph.walk, closingTest, depthAfter, closes, ih]

/-- **Argument lists ignore the kind of line breaks.** -/
theorem splitParens?_normalize (text : Text) :
    splitParens? text.normalize =
      (splitParens? text).map fun (inner, after) => (normalize inner, normalize after) := by
  have closing : isBreak ')' = false := rfl
  have refuses (depth : Nat) (glyph : Glyph) (rest : List Glyph)
      (breaks : isBreak glyph.char = true) : closingTest depth (glyph :: rest) = none := by
    rw [closingTest, Glyph.isTopLevelChar_of_isBreak breaks closing]
    simp
  have agrees (depth other : Nat) (glyph : Glyph) (rest : List Glyph) (same : depth = other)
      (_ : isBreak glyph.char = false) :
      closingTest other (glyph :: Glyph.normalizeAll rest) =
        (closingTest depth (glyph :: rest)).map Glyph.normalizeAll := by
    rw [closingTest, closingTest, same]
    split <;> rfl
  have steps (depth other : Nat) (glyph : Glyph) (same : depth = other) :
      depthAfter depth glyph = depthAfter other glyph.unify := by
    rw [same, depthAfter_unify]
  have pairs (depth other : Nat) (first second : Glyph) (same : depth = other)
      (isReturn : first.char = '\r') (isFeed : second.char = '\n') :
      depthAfter (depthAfter depth first) second = depthAfter other first.unify := by
    rw [depthAfter_break _ (by rw [isFeed]; rfl), steps depth other first same]
  rw [splitParens?, splitParens?, splitClosing?_eq_walk, splitClosing?_eq_walk, scan_normalize,
    Glyph.walk_normalize refuses agrees steps pairs text.scan rfl, Option.map_map, Option.map_map]
  congr 1
  funext found
  exact Prod.ext (Glyph.ofGlyphs_normalizeAll found.1) (Glyph.ofGlyphs_normalizeAll found.2)

theorem splitStatement?_normalize (text : Text) :
    splitStatement? text.normalize =
      (splitStatement? text).map fun (statement, after) =>
        (normalize statement, normalize after) := by
  have visible : isBreak ';' = false := rfl
  rw [splitStatement?, splitStatement?, splitTopLevel?_normalize visible, Option.map_map,
    Option.map_map]
  congr 1
  funext found
  exact congrArg (·, _) (normalize_append_cons visible found.1 []).symm

end Text

end RoutineScripts
