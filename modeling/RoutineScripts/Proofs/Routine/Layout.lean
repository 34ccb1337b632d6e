import RoutineScripts.Proofs.Routine.Opening
import RoutineScripts.Proofs.Routine.Printing
import RoutineScripts.Proofs.Routine.Spacing

/-!
# Statements laid out in tokens

A text spreads out some pieces when it consists of them with ASCII white space in front of each
(`Text.Spread`). Up to the amount of white space this is a text of spaced pieces
(`Text.Spread.squeeze_eq`), and a search for the keyword of a body passes over it where no piece is
that keyword (`Text.Spread.misses_bodyTest`).

A `Statement` defines a function `f()` with a short body. Its keywords are in any letter case, and
its tokens on both sides of the body are spread out in any way. The main statement is
`Statement.ofText?_text`: the parts of a statement are found where they were laid out.
-/

namespace RoutineScripts

namespace Text

/-- A visible front is kept. -/
theorem squeeze_append_of_visible {front : Text} (visible : ∀ c ∈ front, isBlank c = false)
    (back : Text) : squeeze (front ++ back) = front ++ squeeze back := by
  induction front with
  | nil => rfl
  | cons c front ih =>
      obtain ⟨here, later⟩ := List.forall_mem_cons.mp visible
      rw [List.cons_append, squeeze_cons here, ih later, List.cons_append]

/-! ### Tokens with white space in front of them -/

/-- ASCII white space between two tokens. -/
structure IsSpace (gap : Text) : Prop where
  nonempty : gap ≠ []
  ascii : ∀ c ∈ gap, isAsciiBlank c = true

instance (gap : Text) : Decidable (IsSpace gap) :=
  decidable_of_iff (gap ≠ [] ∧ gap.all isAsciiBlank = true)
    ⟨fun ⟨nonempty, ascii⟩ => ⟨nonempty, List.all_eq_true.mp ascii⟩,
      fun isSpace => ⟨isSpace.nonempty, List.all_eq_true.mpr isSpace.ascii⟩⟩

/-- White space in ASCII is white space. -/
theorem IsSpace.blank {gap : Text} (isSpace : IsSpace gap) : ∀ c ∈ gap, isBlank c = true :=
  fun c member => isBlank_of_isAsciiBlank (isSpace.ascii c member)

/-- The text consists of the pieces, with ASCII white space in front of each. -/
def Spread : List Text → Text → Prop
  | [], text => text = []
  | piece :: pieces, text =>
      ∃ gap rest, text = gap ++ (piece ++ rest) ∧ IsSpace gap ∧ Spread pieces rest

/-- The pieces with an ending at the last of them. -/
def close (ending : Text) : List Text → List Text
  | [] => []
  | [last] => [last ++ ending]
  | piece :: next :: pieces => piece :: close ending (next :: pieces)

theorem close_nil (pieces : List Text) : close [] pieces = pieces := by
  induction pieces with
  | nil => rfl
  | cons piece pieces ih =>
      cases pieces with
      | nil => simp [close]
      | cons next pieces => rw [close, ih]

theorem close_ne_nil {ending : Text} {pieces : List Text} (nonempty : pieces ≠ []) :
    close ending pieces ≠ [] := by
  obtain ⟨piece, pieces, rfl⟩ := List.exists_cons_of_ne_nil nonempty
  cases pieces <;> exact List.cons_ne_nil _ _

/-- The ending of two lists of pieces is that of the second. -/
theorem close_append (ending : Text) (front : List Text) {back : List Text} (nonempty : back ≠ []) :
    close ending (front ++ back) = front ++ close ending back := by
  induction front with
  | nil => rfl
  | cons piece front ih =>
      obtain ⟨next, others, shape⟩ := List.exists_cons_of_ne_nil
        (List.append_ne_nil_of_right_ne_nil front nonempty)
      rw [List.cons_append, List.cons_append, ← ih, shape]
      rfl

/-- The ending is written last. -/
theorem spaced_close (ending : Text) {pieces : List Text} (nonempty : pieces ≠ []) :
    spaced (close ending pieces) = spaced pieces ++ ending := by
  induction pieces with
  | nil => exact absurd rfl nonempty
  | cons piece pieces ih =>
      cases pieces with
      | nil => simp [close, spaced]
      | cons next pieces =>
          rw [close, spaced_cons, ih (List.cons_ne_nil _ _), ← List.append_assoc]
          rfl

/-- The last piece has the ending. -/
theorem getLast?_close (ending : Text) (pieces : List Text) :
    (close ending pieces).getLast? = pieces.getLast?.map (· ++ ending) := by
  induction pieces with
  | nil => rfl
  | cons piece pieces ih =>
      cases pieces with
      | nil => rfl
      | cons next pieces =>
          rw [close, List.getLast?_cons, ih]
          simp [List.getLast?_cons]

/-- Upper case is taken of the pieces and of the ending. -/
theorem map_close (ending : Text) (pieces : List Text) :
    (close ending pieces).map asciiUpper = close ending.asciiUpper (pieces.map asciiUpper) := by
  induction pieces with
  | nil => rfl
  | cons piece pieces ih =>
      cases pieces with
      | nil => simp [close, asciiUpper]
      | cons next pieces => exact congrArg (piece.asciiUpper :: ·) ih

/-- A piece with or without the ending was one of the pieces. -/
theorem exists_of_mem_close {ending piece : Text} {pieces : List Text}
    (member : piece ∈ close ending pieces) :
    ∃ token ∈ pieces, piece = token ∨ piece = token ++ ending := by
  induction pieces with
  | nil => cases member
  | cons token pieces ih =>
      cases pieces with
      | nil => exact ⟨token, List.mem_cons_self, Or.inr (List.mem_singleton.mp member)⟩
      | cons next pieces =>
          rcases List.mem_cons.mp member with rfl | later
          · exact ⟨piece, List.mem_cons_self, Or.inl rfl⟩
          · obtain ⟨token, inside, shape⟩ := ih later
            exact ⟨token, List.mem_cons_of_mem _ inside, shape⟩

/-- A character with a space in the place of any white space. -/
def blanked (c : Char) : Char :=
  if isBlank c then ' ' else c

/-- A visible text is kept. -/
theorem blanked_of_visible {text : Text} (visible : ∀ c ∈ text, isBlank c = false) :
    text.map blanked = text := by
  induction text with
  | nil => rfl
  | cons c text ih =>
      obtain ⟨here, later⟩ := List.forall_mem_cons.mp visible
      rw [List.map_cons, ih later, blanked, here]
      rfl

/-- White space becomes as many spaces. -/
theorem blanked_of_blank {gap : Text} (blank : ∀ c ∈ gap, isBlank c = true) :
    gap.map blanked = List.replicate gap.length ' ' := by
  induction gap with
  | nil => rfl
  | cons c gap ih =>
      obtain ⟨here, later⟩ := List.forall_mem_cons.mp blank
      rw [List.map_cons, ih later, blanked, here]
      rfl

theorem spaced_replicate_nil (n : Nat) : spaced (List.replicate n []) = List.replicate n ' ' := by
  induction n with
  | zero => rfl
  | succ n ih => rw [List.replicate_succ, spaced_cons, ih, List.replicate_succ]; rfl

namespace Spread

variable {pieces : List Text} {text : Text}

theorem append {others : List Text} {back : Text} (spread : Spread pieces text)
    (more : Spread others back) : Spread (pieces ++ others) (text ++ back) := by
  induction pieces generalizing text with
  | nil =>
      cases spread
      exact more
  | cons piece pieces ih =>
      obtain ⟨gap, rest, rfl, isSpace, later⟩ := spread
      exact ⟨gap, rest ++ back, by simp, isSpace, ih later⟩

theorem singleton {gap : Text} (isSpace : IsSpace gap) (piece : Text) :
    Spread [piece] (gap ++ piece) :=
  ⟨gap, [], by simp, isSpace, rfl⟩

/-- Pieces with a single space in front of each are spread. -/
theorem spaced (pieces : List Text) : Spread pieces (Text.spaced pieces) := by
  induction pieces with
  | nil => rfl
  | cons piece pieces ih =>
      exact ⟨[' '], Text.spaced pieces, rfl, by decide, ih⟩

/-- A spread text holds white space and the characters of the pieces. -/
theorem mem (spread : Spread pieces text) {c : Char} (member : c ∈ text) :
    isAsciiBlank c = true ∨ ∃ piece ∈ pieces, c ∈ piece := by
  induction pieces generalizing text with
  | nil =>
      cases spread
      cases member
  | cons piece pieces ih =>
      obtain ⟨gap, rest, rfl, isSpace, later⟩ := spread
      rw [List.mem_append, List.mem_append] at member
      rcases member with inGap | inPiece | inRest
      · exact Or.inl (isSpace.ascii c inGap)
      · exact Or.inr ⟨piece, List.mem_cons_self, inPiece⟩
      · rcases ih later inRest with blank | ⟨other, inside, within⟩
        · exact Or.inl blank
        · exact Or.inr ⟨other, List.mem_cons_of_mem _ inside, within⟩

/-- More white space may stand in front of the first piece. -/
theorem widen (spread : Spread pieces text) (nonempty : pieces ≠ []) {gap : Text}
    (ascii : ∀ c ∈ gap, isAsciiBlank c = true) : Spread pieces (gap ++ text) := by
  obtain ⟨piece, pieces, rfl⟩ := List.exists_cons_of_ne_nil nonempty
  obtain ⟨space, rest, rfl, isSpace, later⟩ := spread
  refine ⟨gap ++ space, rest, by simp, ⟨?_, ?_⟩, later⟩
  · simp [isSpace.nonempty]
  · exact List.forall_mem_append.mpr ⟨ascii, isSpace.ascii⟩

/-- The last piece goes on with what follows it. -/
theorem close (spread : Spread pieces text) (nonempty : pieces ≠ []) (ending : Text) :
    Spread (Text.close ending pieces) (text ++ ending) := by
  induction pieces generalizing text with
  | nil => exact absurd rfl nonempty
  | cons piece pieces ih =>
      obtain ⟨gap, rest, rfl, isSpace, later⟩ := spread
      cases pieces with
      | nil =>
          cases later
          exact ⟨gap, [], by simp, isSpace, rfl⟩
      | cons next pieces =>
          exact ⟨gap, rest ++ ending, by simp, isSpace, ih later (List.cons_ne_nil _ _)⟩

/-- Where the pieces are visible, squeezing leaves one space in front of each. -/
theorem squeeze_append (spread : Spread pieces text)
    (visible : ∀ piece ∈ pieces, piece ≠ [] ∧ ∀ c ∈ piece, isBlank c = false) (back : Text) :
    squeeze (text ++ back) = Text.spaced pieces ++ squeeze back := by
  induction pieces generalizing text with
  | nil =>
      cases spread
      rfl
  | cons piece pieces ih =>
      obtain ⟨gap, rest, rfl, isSpace, later⟩ := spread
      obtain ⟨⟨nonempty, shown⟩, others⟩ := List.forall_mem_cons.mp visible
      have starts : (piece ++ (rest ++ back)).head?.any isBlank = false := by
        obtain ⟨c, piece, rfl⟩ := List.exists_cons_of_ne_nil nonempty
        exact shown c List.mem_cons_self
      rw [List.append_assoc, List.append_assoc, squeeze_gap isSpace.nonempty isSpace.blank,
        dropWhile_of_starts starts, squeeze_append_of_visible shown, ih later others,
        Text.spaced_cons]
      simp

/-- A spread text is squeezed to the pieces with single spaces. -/
theorem squeeze_eq (spread : Spread pieces text)
    (visible : ∀ piece ∈ pieces, piece ≠ [] ∧ ∀ c ∈ piece, isBlank c = false) :
    squeeze text = Text.spaced pieces := by
  have whole := spread.squeeze_append visible []
  rwa [List.append_nil, squeeze, List.append_nil] at whole

/-- With a space for each character of white space, the text has its pieces and empty ones. -/
theorem exists_blanked_eq (spread : Spread pieces text)
    (visible : ∀ piece ∈ pieces, ∀ c ∈ piece, isBlank c = false) :
    ∃ filled, text.map blanked = Text.spaced filled ∧
      ∀ piece ∈ filled, piece = [] ∨ piece ∈ pieces := by
  induction pieces generalizing text with
  | nil =>
      cases spread
      exact ⟨[], rfl, fun _ member => absurd member List.not_mem_nil⟩
  | cons piece pieces ih =>
      obtain ⟨gap, rest, rfl, isSpace, later⟩ := spread
      obtain ⟨shown, others⟩ := List.forall_mem_cons.mp visible
      obtain ⟨filled, same, listed⟩ := ih later others
      obtain ⟨n, long⟩ : ∃ n, gap.length = n + 1 :=
        Nat.exists_eq_succ_of_ne_zero fun none => isSpace.nonempty (List.length_eq_zero_iff.mp none)
      refine ⟨List.replicate n [] ++ piece :: filled, ?_, fun other member => ?_⟩
      · rw [List.map_append, List.map_append, blanked_of_blank isSpace.blank, long,
          blanked_of_visible shown, same, spaced_append, spaced_replicate_nil, spaced_cons,
          List.replicate_succ']
        simp
      · rcases List.mem_append.mp member with empty | here
        · exact Or.inl (List.eq_of_mem_replicate empty)
        · rcases List.mem_cons.mp here with rfl | inside
          · exact Or.inr List.mem_cons_self
          · exact (listed other inside).imp id (List.mem_cons_of_mem _)

end Spread

/-! ### The keyword of a body -/

/-- A test that a conversion of characters makes no difference to accepts at the same places. -/
theorem misses_of_map {β : Type} {test : Option Char → Text → Option β} {convert : Char → Char}
    (same : ∀ previous text, test (previous.map convert) (text.map convert) = test previous text)
    {previous : Option Char} {front back : Text}
    (misses : Misses test (previous.map convert) (front.map convert) (back.map convert)) :
    Misses test previous front back := by
  induction front generalizing previous with
  | nil => exact misses_nil
  | cons c front ih =>
      obtain ⟨refused, later⟩ := misses_cons.mp misses
      refine misses_cons.mpr ⟨?_, @ih (some c) later⟩
      rw [← same]
      simpa using refused

/-- A lead without white space is taken off both texts. -/
theorem afterCaseless?_blanked {lead : Text} (visible : ∀ a ∈ lead, isBlank a.toLower = false)
    (text : Text) :
    afterCaseless? lead (text.map blanked) = (afterCaseless? lead text).map (·.map blanked) := by
  induction lead generalizing text with
  | nil => cases text <;> rfl
  | cons a lead ih =>
      obtain ⟨here, later⟩ := List.forall_mem_cons.mp visible
      cases text with
      | nil => rfl
      | cons c text =>
          rw [List.map_cons, afterCaseless?, afterCaseless?, ih later]
          cases blank : isBlank c with
          | false =>
              have kept : blanked c = c := by simp [blanked, blank]
              rw [kept]
              split <;> rfl
          | true =>
              have lower (d : Char) (isBlankChar : isBlank d = true) : a.toLower ≠ d.toLower := by
                rw [Recogniser.toLower_of_isBlank isBlankChar]
                rintro same
                rw [same, isBlankChar] at here
                cases here
              have space : blanked c = ' ' := by simp [blanked, blank]
              rw [space, if_neg (lower ' ' (by decide)), if_neg (lower c blank)]
              rfl

/-- White space of any kind is no identifier character. -/
theorem isIdentifierChar_blanked (c : Char) :
    isIdentifierChar (blanked c) = isIdentifierChar c := by
  rw [blanked]
  split
  case isTrue blank =>
    have none : isIdentifierChar c = false := eq_false_of_isBlank (by decide) blank
    rw [none]
    decide
  case isFalse => rfl

/-- The keyword of a body is recognised the same with spaces for white space. -/
theorem bodyTest_blanked (previous : Option Char) (text : Text) :
    bodyTest (previous.map blanked) (text.map blanked) = bodyTest previous text := by
  have same : keywordAt (previous.map blanked) (text.map blanked) ['A', 'S'] =
      keywordAt previous text ['A', 'S'] := by
    rw [keywordAt, keywordAt, afterCaseless?_blanked (by simp; decide)]
    cases afterCaseless? ['A', 'S'] text with
    | none => rfl
    | some after => cases previous <;> cases after <;> simp [isIdentifierChar_blanked]
  rw [bodyTest, bodyTest, same]

/-- The keyword of a body does not start at white space. -/
theorem bodyTest_blank {c : Char} (blank : isBlank c = true) (previous : Option Char)
    (rest : Text) : bodyTest previous (c :: rest) = none := by
  rw [bodyTest, if_neg]
  intro stands
  obtain ⟨a, b, tail, shape, isA, _⟩ := eq_cons_of_keywordAt stands
  obtain ⟨rfl, _⟩ := List.cons.inj shape
  rw [Recogniser.toLower_of_isBlank blank] at isA
  rw [isA] at blank
  cases blank

/-- The search for the keyword of a body passes over pieces that lack it. -/
theorem Spread.misses_bodyTest {pieces : List Text} {text gap back : Text}
    (spread : Spread pieces text) (lacks : ∀ piece ∈ pieces, Options.Lacks ["AS"] piece)
    (isSpace : IsSpace gap) (previous : Option Char) :
    Misses bodyTest previous (text ++ gap) back := by
  refine misses_append.mpr ⟨misses_of_map bodyTest_blanked ?_, ?_⟩
  · obtain ⟨filled, same, listed⟩ := spread.exists_blanked_eq fun piece member =>
      (lacks piece member).visible
    have separates : Separates ((gap ++ back).map blanked) := by
      obtain ⟨c, gap, rfl⟩ := List.exists_cons_of_ne_nil isSpace.nonempty
      have space : blanked c = ' ' := by simp [blanked, isSpace.blank c List.mem_cons_self]
      rw [List.cons_append, List.map_cons, space]
      exact separates_space _
    rw [same]
    refine readsWord_bodyTest.misses_spaced separates (fun piece member _ _ _ _ apart => ?_) _
    have lacksHere : Options.Lacks ["AS"] piece := by
      rcases listed piece member with rfl | inside
      · decide
      · exact lacks piece inside
    exact lacksHere.not_bodyKeyword apart
  · rintro before c after rfl
    exact bodyTest_blank (isSpace.blank c (by simp)) _ _

/-- The keyword of a body is its two letters in any case. -/
theorem eq_pair_of_asciiUpper {keyword : Text} (upper : keyword.asciiUpper = "AS".toList) :
    ∃ a s, keyword = [a, s] ∧ a.toUpper = 'A' ∧ s.toUpper = 'S' := by
  have letters : keyword.map Char.toUpper = ['A', 'S'] := upper
  obtain ⟨a, _, rfl, isA, more⟩ := List.map_eq_cons_iff.mp letters
  obtain ⟨s, _, rfl, isS, nothing⟩ := List.map_eq_cons_iff.mp more
  obtain rfl := List.map_eq_nil_iff.mp nothing
  exact ⟨a, s, rfl, isA, isS⟩

/-- The keyword is found where it stands between white space, in any letter case. -/
theorem splitAs?_of_keyword {previous : Option Char} {keyword rest : Text}
    (upper : keyword.asciiUpper = "AS".toList) (starts : previous.any isIdentifierChar = false)
    (ends : rest.head?.any isIdentifierChar = false) :
    splitAs? previous 0 (scan (keyword ++ rest)) = some (keyword, rest) := by
  obtain ⟨a, s, rfl, isA, isS⟩ := eq_pair_of_asciiUpper upper
  have lower (letter small : Char) (ascii : letter.toNat < 128)
      (checked : ∀ code ∈ formCodes, isFormOf letter (Char.ofNat code) = true →
        ((Char.ofNat code).toUpper != letter || (Char.ofNat code).toLower == small) = true)
      (c : Char) (isUpper : c.toUpper = letter) : c.toLower = small := by
    have test := @eq_true_of_isFormOf (fun c => c.toUpper != letter || c.toLower == small) letter c
      ascii checked (by simp [isFormOf, isUpper])
    simpa [isUpper] using test
  have lowerA := lower 'A' 'a' (by decide) (by decide +kernel) a isA
  have lowerS := lower 'S' 's' (by decide) (by decide +kernel) s isS
  have stands : keywordAt previous (a :: s :: rest) ['A', 'S'] = true := by
    have read : afterCaseless? ['A', 'S'] (a :: s :: rest) = some rest := by
      simp [afterCaseless?, lowerA, lowerS]
    rw [keywordAt, read]
    simp [starts, ends]
  let first : Glyph := ⟨a, .single, .normal, .normal⟩
  let second : Glyph := ⟨s, .single, .normal, .normal⟩
  have scanned : scan (a :: s :: rest) = first :: second :: scan rest := by
    rw [scan_cons_of_plain (plain_of_toLower (Or.inl lowerA)).1,
      scan_cons_of_plain (plain_of_toLower (Or.inr lowerS)).1]
  have whole : ofGlyphs (first :: second :: scan rest) = a :: s :: rest :=
    congrArg (fun tail => a :: s :: tail) (ofGlyphs_scan rest)
  have marks : Marks previous 0 [] first (second :: scan rest) :=
    ⟨rfl, rfl, by rw [whole]; exact stands⟩
  obtain ⟨next, others, shape, _, _, found⟩ := splitAs?_of_marks marks
  obtain ⟨rfl, rfl⟩ := List.cons.inj shape
  rw [List.cons_append, List.cons_append, List.nil_append, scanned, found, ofGlyphs_scan]

end Text

namespace Recogniser

/-- A word in upper case is a form of its letters. -/
theorem spells_of_asciiUpper {letters : List Char} {word : Text}
    (upper : word.asciiUpper = letters) : Spells letters word := by
  induction word generalizing letters with
  | nil =>
      cases upper
      trivial
  | cons c word ih =>
      obtain rfl := upper.symm
      exact ⟨by simp [isFormOf], ih rfl⟩

/-- A word in upper case is accepted as the keyword. -/
theorem keyword_of_asciiUpper {word : String} {token : Text}
    (upper : token.asciiUpper = word.toList) (rest : Text) :
    keyword word (token ++ rest) = some (token, rest) :=
  keyword_eq_some_iff.mpr ⟨spells_of_asciiUpper upper, rfl⟩

/-- A gap before a visible character is accepted as white space. -/
theorem blanks_append {gap rest : Text} (isSpace : Text.IsSpace gap)
    (visible : rest.head?.any isBlank = false) : blanks (gap ++ rest) = some (gap, rest) :=
  blanks_eq_some_iff.mpr ⟨isSpace.nonempty, rfl, isSpace.blank, visible⟩

end Recogniser

/-! ### The header -/

namespace Header

open Recogniser

/-- The header of a function is read in any letter case and with any white space. -/
theorem read?_of_asciiUpper {create gap function space rest : Text}
    (created : create.asciiUpper = "CREATE".toList) (isGap : Text.IsSpace gap)
    (functional : function.asciiUpper = "FUNCTION".toList) (isSpace : Text.IsSpace space)
    (visible : rest.head?.any isBlank = false) :
    read? (create ++ (gap ++ (function ++ (space ++ rest)))) =
      some (⟨.function, create ++ gap ++ function ++ space⟩, rest) := by
  have spells : Spells "FUNCTION".toList function := spells_of_asciiUpper functional
  have starts (back : Text) : (function ++ back).head?.any isBlank = false :=
    @Remark.any_isBlank_of_spells _ "UNCTION".toList _ _ (by decide) spells
  have noReplace (back : Text) : Recogniser.optional
      (Recogniser.sequence [.keyword "OR", blanks, .keyword "REPLACE", blanks]) (function ++ back) =
        some ([], function ++ back) := by
    have other : keyword "OR" (function ++ back) = none := by
      obtain ⟨c, others, rfl, form, _⟩ := @Remark.eq_cons_of_spells _ "UNCTION".toList _ spells
      have isF : isFormOf 'F' c = true := form
      have upper : c.toUpper = 'F' := by simpa [isFormOf] using isF
      have differs : isFormOf 'O' c = false := by simp [isFormOf, upper]
      have letters : "OR".toList = ['O', 'R'] := rfl
      rw [keyword, letters, List.cons_append, spell, differs]
      rfl
    simp [Recogniser.optional, Recogniser.sequence, andThen, other]
  have opened : Header.create (create ++ (gap ++ (function ++ (space ++ rest)))) =
      some (create ++ gap, function ++ (space ++ rest)) := by
    simp only [Header.create, Recogniser.sequence, List.foldr_cons, List.foldr_nil, andThen,
      keyword_of_asciiUpper created, blanks_append isGap (starts _)] at noReplace ⊢
    rw [noReplace]
    simp [nothing]
  have kind : readKind? (function ++ (space ++ rest)) =
      some (.function, function, space ++ rest) := by
    rw [readKind?, keyword_of_asciiUpper functional]
  rw [read?, opened]
  simp only [kind, blanks_append isSpace visible, Option.map_some]

end Header

/-! ### No remark -/

namespace Remark

open Recogniser Text

/-- The text ends in the word that introduces the literal of a comment statement, and white
space. -/
def EndsInIs (text : Text) : Prop :=
  ∃ front i s gap, text = front ++ i :: s :: gap ∧ isFormOf 'I' i = true ∧ isFormOf 'S' s = true ∧
    gap ≠ [] ∧ ∀ c ∈ gap, isBlank c = true

theorem EndsInIs.append {front : Text} (endsInIs : EndsInIs front) (before : Text) :
    EndsInIs (before ++ front) := by
  obtain ⟨start, i, s, gap, rfl, isI, isS, isGap⟩ := endsInIs
  exact ⟨before ++ start, i, s, gap, by simp, isI, isS, isGap⟩

/-- The last character is white space. -/
theorem EndsInIs.getLast? {text : Text} (endsInIs : EndsInIs text) :
    text.getLast?.any isBlank = true := by
  obtain ⟨front, i, s, gap, rfl, _, _, nonempty, blank⟩ := endsInIs
  have last := blank _ (List.getLast_mem nonempty)
  simp [List.getLast?_append, List.getLast?_cons, List.getLast?_eq_some_getLast nonempty, last]

/-- The words that introduce a comment end in that word. -/
theorem endsInIs_of_introduction {text words rest : Text}
    (read : introduction text = some (words, rest)) : EndsInIs words ∧ text = words ++ rest := by
  obtain ⟨⟨i, s, gap, rfl, isI, isS, nonempty, blank⟩, whole, _⟩ :=
    introduction_eq_some_iff.mp read
  exact ⟨⟨[], i, s, gap, rfl, isI, isS, nonempty, blank⟩, whole⟩

section NoValue

variable {text : Text} (unquoted : '\'' ∉ text)
  (apart : ∀ front back, text = front ++ '$' :: back → ¬ EndsInIs front)

include unquoted in
/-- No quoted comment is found. -/
theorem findQuoted?_eq_none : findQuoted? text = none := by
  rw [findQuoted?, Option.map_eq_none_iff, search_eq_none_iff_forall]
  rintro passed rest rfl
  cases found : readQuoted? rest with
  | none => rfl
  | some value =>
      rw [readQuoted?] at found
      split at found
      case h_1 words opened introduced =>
        obtain ⟨_, rfl⟩ := endsInIs_of_introduction introduced
        simp at unquoted
      case h_2 => cases found

include apart in
/-- No comment between dollar tags is found. -/
theorem findDollar?_eq_none : findDollar? text = none := by
  have missed : search (fun _ rest => readOpeningTag? rest) none text = none := by
    rw [search_eq_none_iff_forall]
    rintro passed rest whole
    cases found : readOpeningTag? rest with
    | none => rfl
    | some parts =>
        rw [readOpeningTag?] at found
        split at found
        case h_1 => cases found
        case h_2 words after introduced =>
          obtain ⟨endsInIs, rfl⟩ := endsInIs_of_introduction introduced
          obtain ⟨⟨tag, opened⟩, tagged, _⟩ := Option.map_eq_some_iff.mp found
          simp only [dollarTag, Recogniser.sequence, List.foldr_cons, andThen_eq_some_iff,
            char_eq_some_iff] at tagged
          obtain ⟨_, back, _, ⟨_, rfl⟩, _⟩ := tagged
          exact absurd (endsInIs.append passed) (apart _ back (by rw [whole]; simp))
  rw [findDollar?, missed]

include unquoted apart in
/-- No comment is found in either form. -/
theorem findValue?_eq_none : findValue? text = none := by
  rw [findValue?, findQuoted?_eq_none unquoted, findDollar?_eq_none apart]

include unquoted apart in
/-- Without quotes, and without a dollar sign after the word `IS`, there is no comment statement. -/
theorem find?_eq_none : find? text = none := by
  rw [find?]
  split
  case h_1 before words c rest searched =>
    obtain ⟨tail, rfl, read⟩ := eq_append_of_search searched
    obtain rfl := splits_opening _ _ _ read
    have none : findValue? rest = none := by
      refine findValue?_eq_none (fun member => unquoted (by simp [member])) ?_
      rintro front back rfl endsInIs
      exact apart (before ++ words ++ c :: front) back (by simp)
        ((endsInIs.append [c]).append (before ++ words))
    rw [none]
  case h_2 => rfl

end NoValue

end Remark

/-! ### Statements -/

/-- The characters of tokens and of the white space between them. -/
def isLaidChar (c : Char) : Bool :=
  isAsciiBlank c || isTypeChar c

/-- They open, close and end nothing. -/
theorem plain_of_isLaidChar {c : Char} (laid : isLaidChar c = true) :
    c ∉ ['-', '/', '$', '\'', '"'] ∧ c ∉ ['(', ')'] ∧ c ≠ ';' := by
  simp only [List.mem_cons, List.not_mem_nil, or_false, not_or]
  refine ⟨⟨?_, ?_, ?_, ?_, ?_⟩, ⟨?_, ?_⟩, ?_⟩ <;>
    (rintro rfl; exact absurd laid (by decide))

/-- A character whose upper case is one of identifiers is one itself. -/
theorem isIdentifierChar_of_toUpper {c : Char} (upper : isIdentifierChar c.toUpper = true) :
    isIdentifierChar c = true := by
  by_cases lower : 'a'.val ≤ c.val ∧ c.val ≤ 'z'.val
  · have isLower : c.isLower = true :=
      Bool.and_eq_true_iff.mpr ⟨decide_eq_true lower.1, decide_eq_true lower.2⟩
    have letter : c.isAlpha = true := (Bool.or_eq_true _ _).mpr (Or.inr isLower)
    simp [isIdentifierChar, Char.isAlphanum, letter]
  · have kept : c.toUpper = c := dif_neg lower
    rwa [kept] at upper

/-- A text whose upper case is an identifier is one itself. -/
theorem isIdentifierChar_of_asciiUpper {token : Text}
    (identifier : token.asciiUpper.all isIdentifierChar = true) :
    ∀ c ∈ token, isIdentifierChar c = true := fun _ member =>
  isIdentifierChar_of_toUpper (List.all_eq_true.mp identifier _ (List.mem_map_of_mem member))

/-- A definition of a function `f()` with a short body, written in tokens. The tokens in `lead`
stand before the body and those in `trail` after it, spread out as the texts `before` and `after`.
The keywords are in any letter case. -/
structure Statement (lead trail : List Text) where
  create : Text
  gap : Text
  function : Text
  space : Text
  before : Text
  keywordGap : Text
  keyword : Text
  bodyGap : Text
  after : Text
  close : Text
  created : create.asciiUpper = "CREATE".toList
  isGap : Text.IsSpace gap
  functional : function.asciiUpper = "FUNCTION".toList
  isSpace : Text.IsSpace space
  leads : Text.Spread lead before
  isKeywordGap : Text.IsSpace keywordGap
  upper : keyword.asciiUpper = "AS".toList
  isBodyGap : Text.IsSpace bodyGap
  trails : Text.Spread trail after
  closes : ∀ c ∈ close, isAsciiBlank c = true

namespace Statement

open Text

variable {lead trail : List Text}

/-- The statement as text, such as `create function f() stable AS $$x$$ language sql;`. -/
def text (statement : Statement lead trail) : Text :=
  statement.create ++ statement.gap ++ statement.function ++ statement.space ++ "f()".toList
    ++ statement.before ++ statement.keywordGap ++ statement.keyword ++ statement.bodyGap
    ++ "$$x$$".toList ++ statement.after ++ statement.close ++ [';']

/-- The parts of a statement. -/
def script (statement : Statement lead trail) : Script where
  before := []
  header := ⟨.function,
    statement.create ++ statement.gap ++ statement.function ++ statement.space⟩
  name := ['f']
  arguments := []
  leading := statement.before ++ statement.keywordGap ++ statement.keyword ++ statement.bodyGap
  body := .dollar ['$', '$'] ['x']
  trailing := statement.after ++ statement.close ++ [';']
  remark := none
  after := []

/-- Tokens of type characters that are not the keyword of a body. -/
structure Plain (lead trail : List Text) : Prop where
  typed : ∀ token ∈ lead ++ trail, ∀ c ∈ token, isTypeChar c = true
  lacks : ∀ token ∈ lead, Options.hasWord "AS" token.asciiUpper = false

/-- What stands between the last token before the body and the end, without the body. -/
def tail (statement : Statement lead trail) : Text :=
  statement.keywordGap ++ statement.keyword ++
    (statement.bodyGap ++ [' '] ++ statement.script.trailing)

/-- The options of a statement stand before its body and after it. -/
theorem optionText_eq (statement : Statement lead trail) :
    statement.script.optionText = statement.before ++ statement.tail := by
  simp [Script.optionText, script, tail]

/-- The keyword of the body, the tokens after the body and the end of the statement. -/
theorem spread_tail (statement : Statement lead trail) :
    ∃ ended, Spread (statement.keyword :: ended) statement.tail ∧
      (ended = trail ++ [[';']] ∨ trail ≠ [] ∧ ended = Text.close [';'] trail) := by
  have ascii : ∀ c ∈ statement.bodyGap ++ [' '], isAsciiBlank c = true :=
    List.forall_mem_append.mpr ⟨statement.isBodyGap.ascii, List.forall_mem_singleton.mpr rfl⟩
  have keyword := Spread.singleton statement.isKeywordGap statement.keyword
  by_cases glued : statement.close = []
  · by_cases none : trail = []
    · -- Nothing stands between the body and the end.
      subst none
      have nothing : statement.after = [] := statement.trails
      have trailing : statement.script.trailing = [';'] := by
        simp [script, nothing, glued]
      refine ⟨[[';']], ?_, Or.inl rfl⟩
      rw [tail, trailing]
      exact keyword.append (Spread.singleton ⟨by simp, ascii⟩ [';'])
    · have ended := statement.trails.close none [';']
      have trailing : statement.script.trailing = statement.after ++ [';'] := by
        simp [script, glued]
      refine ⟨Text.close [';'] trail, ?_, Or.inr ⟨none, rfl⟩⟩
      rw [tail, trailing]
      exact keyword.append (ended.widen (close_ne_nil none) ascii)
  · have ended := statement.trails.append (Spread.singleton ⟨glued, statement.closes⟩ [';'])
    have trailing : statement.script.trailing = statement.after ++ (statement.close ++ [';']) := by
      simp [script]
    refine ⟨trail ++ [[';']], ?_, Or.inl rfl⟩
    rw [tail, trailing]
    exact keyword.append (ended.widen (by simp) ascii)

/-- A statement is its prologue, its body and what follows. -/
theorem text_eq (statement : Statement lead trail) :
    statement.text = statement.script.prologue ++ (['$', '$'] ++ ['x'] ++ ['$', '$']) ++
      statement.script.trailing := by
  have named : "f()".toList = ['f', '(', ')'] := rfl
  have body : "$$x$$".toList = ['$', '$', 'x', '$', '$'] := rfl
  simp [text, script, Script.prologue, named, body]

variable {statement : Statement lead trail} (plain : Plain lead trail)

theorem mem_leading {c : Char} (member : c ∈ statement.script.leading) :
    isAsciiBlank c = true ∨ isIdentifierChar c = true ∨ ∃ token ∈ lead, c ∈ token := by
  simp only [script, List.mem_append] at member
  rcases member with ((inLead | inGap) | inKeyword) | inGap
  · exact (statement.leads.mem inLead).imp_right Or.inr
  · exact Or.inl (statement.isKeywordGap.ascii c inGap)
  · exact Or.inr (Or.inl (isIdentifierChar_of_asciiUpper (statement.upper ▸ by decide) c inKeyword))
  · exact Or.inl (statement.isBodyGap.ascii c inGap)

include plain in
/-- What stands before the body opens, closes and ends nothing. -/
theorem plain_leading : ∀ c ∈ statement.script.leading, isLaidChar c = true := by
  intro c member
  rcases mem_leading member with blank | identifier | ⟨token, inside, within⟩
  · simp [isLaidChar, blank]
  · simp [isLaidChar, isTypeChar_of_isIdentifierChar identifier]
  · simp [isLaidChar, plain.typed token (List.mem_append_left _ inside) c within]

include plain in
/-- After the body stand plain characters only. -/
theorem plain_trailing : ∀ c ∈ statement.after ++ statement.close, isLaidChar c = true := by
  intro c member
  rcases List.mem_append.mp member with inTrail | inClose
  · rcases statement.trails.mem inTrail with blank | ⟨token, inside, within⟩
    · simp [isLaidChar, blank]
    · simp [isLaidChar, plain.typed token (List.mem_append_right _ inside) c within]
  · simp [isLaidChar, statement.closes c inClose]

include plain in
/-- What stands around the body opens no comment and no literal. -/
theorem plain_optionText :
    ∀ c ∈ statement.script.optionText, c ∉ ['-', '/', '$', '\'', '"'] := by
  intro c member
  rcases List.mem_append.mp member with inLead | inTrail
  · exact (plain_of_isLaidChar (plain_leading plain c inLead)).1
  · rcases List.mem_cons.mp inTrail with rfl | inTrail
    · decide
    · rcases List.mem_append.mp inTrail with inside | last
      · exact (plain_of_isLaidChar (plain_trailing plain c inside)).1
      · obtain rfl := List.mem_singleton.mp last
        decide

/-- No identifier goes on after a gap. -/
theorem getLast?_gap {front gap : Text} (isSpace : IsSpace gap) (previous : Option Char) :
    ((front ++ gap).getLast?.or previous).any isIdentifierChar = false := by
  have last := isSpace.blank _ (List.getLast_mem isSpace.nonempty)
  rw [List.getLast?_append, List.getLast?_eq_some_getLast isSpace.nonempty, Option.some_or,
    Option.some_or, Option.any_some]
  exact eq_false_of_isBlank (by decide) last

include plain in
/-- The first `AS` of a statement is the one before the body. -/
theorem leadsTo : Literal.LeadsTo (some ')') statement.script.leading ['$', '$'] := by
  have laid := fun c member => plain_of_isLaidChar (@plain_leading _ _ statement plain c member)
  refine ⟨fun back => settles_of_plain (fun c member => (laid c member).1) _,
    statement.before ++ statement.keywordGap ++ statement.keyword, statement.bodyGap, rfl,
    statement.isBodyGap.ascii, fun back => ?_⟩
  have lacks : ∀ token ∈ lead, Options.Lacks ["AS"] token := fun token member =>
    ⟨fun c inside => isPieceChar_of_isTypeChar
        (plain.typed token (List.mem_append_left _ member) c inside),
      List.forall_mem_singleton.mpr (plain.lacks token member)⟩
  have inFront : ∀ c ∈ statement.before ++ statement.keywordGap,
      c ∈ statement.script.leading := fun c member =>
    List.mem_append_left _ (List.mem_append_left _ member)
  have follows :
      (statement.bodyGap ++ (['$', '$'] ++ back)).head?.any isIdentifierChar = false := by
    obtain ⟨c, gap, split⟩ := List.exists_cons_of_ne_nil statement.isBodyGap.nonempty
    have blank := statement.isBodyGap.blank c (by simp [split])
    have none : isIdentifierChar c = false := eq_false_of_isBlank (by decide) blank
    rw [split]
    simp [none]
  have whole : statement.script.leading ++ (['$', '$'] ++ back) =
      (statement.before ++ statement.keywordGap) ++
        (statement.keyword ++ (statement.bodyGap ++ (['$', '$'] ++ back))) := by
    simp [script]
  rw [whole, splitAs?_of_misses (fun c member => (laid c (inFront c member)).1)
    (fun c member => (laid c (inFront c member)).2.1)
    (statement.leads.misses_bodyTest lacks statement.isKeywordGap _),
    splitAs?_of_keyword statement.upper (getLast?_gap statement.isKeywordGap _) follows]
  rfl

/-- The tag of the body is a dollar tag. -/
theorem isTag_body : IsDollarTag ['$', '$'] :=
  ⟨[], rfl, by simp⟩

include plain in
/-- A statement opens its body. -/
theorem opensBody : Script.OpensBody statement.script ['$', '$'] where
  isTag := isTag_body
  headed := by
    intro rest
    refine search_of_accepts ?_
    have read := @Header.read?_of_asciiUpper _ _ _ _ ('f' :: '(' :: rest) statement.created
      statement.isGap statement.functional statement.isSpace rfl
    simpa [script] using read
  named := by
    intro rest
    have passes : Passes '(' ['f'] ('(' :: rest) := passes_singleton (by decide) (by decide) _
    exact (splitTopLevel?_eq_some_iff inert_open).mpr ⟨rfl, passes.settles, passes.none⟩
  closed := by
    have balances : Balances 0 (scan []) := by decide
    exact splitParens?_of_balances rfl balances
  leads := leadsTo plain

/-- The short body is a literal. -/
theorem firstAfter_body : FirstAfter ['$', '$'] ['x'] (['x'] ++ ['$', '$']) := by
  have split : splitFirst? ['$', '$'] (['x'] ++ ['$', '$']) = some (['x'], []) := by decide
  exact (splitFirst?_eq_some_iff.mp split).2

/-- A dollar sign in a statement opens the body, or it stands right after a character of it. -/
theorem eq_of_dollar {head tail front back : Text} (inHead : '$' ∉ head) (inTail : '$' ∉ tail)
    (split : head ++ (['$', '$'] ++ ['x'] ++ ['$', '$']) ++ tail = front ++ '$' :: back) :
    front = head ∨ front.getLast? = some '$' ∨ front.getLast? = some 'x' := by
  obtain ⟨more, rfl, rest⟩ := exists_append_of_not_mem
    (show front ++ '$' :: back = head ++ ('$' :: '$' :: 'x' :: '$' :: '$' :: tail) by
      rw [← split]
      simp) inHead
  rcases more with _ | ⟨c, _ | ⟨d, _ | ⟨e, _ | ⟨f, _ | ⟨g, more⟩⟩⟩⟩⟩
  · exact Or.inl (List.append_nil _)
  · obtain ⟨rfl, _⟩ := List.cons.inj rest
    simp
  · simp at rest
  · simp only [List.cons_append, List.nil_append, List.cons.injEq] at rest
    obtain ⟨_, _, rfl, _⟩ := rest
    simp
  · simp only [List.cons_append, List.nil_append, List.cons.injEq] at rest
    obtain ⟨_, _, _, rfl, _⟩ := rest
    simp
  · have inside : tail = more ++ '$' :: back := by
      simp only [List.cons_append, List.cons.injEq] at rest
      exact rest.2.2.2.2.2
    exact absurd (by simp [inside]) inTail

/-- The word before the body is its keyword. -/
theorem not_endsInIs_head : ¬ Remark.EndsInIs statement.script.head := by
  rintro ⟨start, i, s, gap, shape, isI, isS, _, blank⟩
  obtain ⟨a, b, keyword, isA, isB⟩ := eq_pair_of_asciiUpper statement.upper
  have visibleS : isBlank s = false := by
    rw [Bool.eq_false_iff]
    intro isBlankChar
    rw [Recogniser.isFormOf_of_isBlank isBlankChar (by decide)] at isS
    cases isS
  have visibleB : isBlank b = false := by
    rw [Bool.eq_false_iff]
    intro isBlankChar
    rw [Recogniser.toUpper_of_isBlank isBlankChar] at isB
    rw [isB] at isBlankChar
    cases isBlankChar
  have opened : ("f()".toList ++ statement.before ++ statement.keywordGap ++ [a]) ++
      b :: statement.bodyGap = (start ++ [i]) ++ s :: gap := by
    rw [List.append_assoc start, List.singleton_append, ← shape]
    simp [Script.head, script, keyword]
  obtain ⟨fronts, _⟩ :=
    append_cons_inj_of_tail visibleB visibleS statement.isBodyGap.blank blank opened
  obtain ⟨_, same⟩ := List.append_inj' fronts rfl
  obtain rfl : a = i := List.singleton_inj.mp same
  simp [isFormOf, isA] at isI

include plain in
/-- No dollar sign stands after the word `IS`: the one after white space stands after `AS`. -/
theorem not_endsInIs {front back : Text}
    (split : statement.script.head ++ (['$', '$'] ++ ['x'] ++ ['$', '$'])
      ++ statement.script.trailing = front ++ '$' :: back) :
    ¬ Remark.EndsInIs front := by
  intro endsInIs
  have noDollar {text : Text} (laid : ∀ c ∈ text, isLaidChar c = true) : '$' ∉ text :=
    fun member => (plain_of_isLaidChar (laid '$' member)).1 (by decide)
  have inHead : '$' ∉ statement.script.head := by
    simpa [Script.head, script] using noDollar (@plain_leading _ _ statement plain)
  have inTail : '$' ∉ statement.script.trailing := by
    have absent := noDollar (@plain_trailing _ _ statement plain)
    simp only [script, List.mem_append, List.mem_singleton, not_or] at absent ⊢
    exact ⟨absent, by decide⟩
  have blank := endsInIs.getLast?
  rcases eq_of_dollar inHead inTail split with rfl | last | last
  · exact not_endsInIs_head endsInIs
  · rw [last] at blank
    cases blank
  · rw [last] at blank
    cases blank

include plain in
/-- No comment statement is found in a statement. -/
theorem find?_remark :
    Remark.find? (statement.script.head ++ (['$', '$'] ++ ['x'] ++ ['$', '$'])
      ++ statement.script.trailing) = none := by
  refine Remark.find?_eq_none ?_ fun front back split => not_endsInIs plain split
  have inHead : '\'' ∉ statement.script.leading := fun member =>
    (plain_of_isLaidChar (plain_leading plain _ member)).1 (by decide)
  have inTail : '\'' ∉ statement.after ++ statement.close := fun member =>
    (plain_of_isLaidChar (plain_trailing plain _ member)).1 (by decide)
  simp only [script, List.mem_append, not_or] at inHead inTail
  simp [Script.head, script, inHead, inTail]

include plain in
/-- The end of a statement is its last character. -/
theorem splitTopLevel?_semicolon :
    splitTopLevel? ';' (statement.script.head ++ (['$', '$'] ++ ['x'] ++ ['$', '$'])
      ++ statement.script.trailing) =
        some (statement.script.head ++ (['$', '$'] ++ ['x'] ++ ['$', '$'])
          ++ (statement.after ++ statement.close), []) := by
  have passes {front : Text} (laid : ∀ c ∈ front, isLaidChar c = true) (back : Text) :
      Passes ';' front back :=
    passes_of_plain (fun member => (plain_of_isLaidChar (laid _ member)).2.2 rfl)
      (fun c member => (plain_of_isLaidChar (laid c member)).1) back
  have head (back : Text) : Passes ';' statement.script.head back := by
    have opened : Passes ';' (['f'] ++ '(' :: [] ++ [')']) (statement.script.leading ++ back) :=
      passes_of_plain (by decide) (by simp) _
    have whole : statement.script.head =
        (['f'] ++ '(' :: [] ++ [')']) ++ statement.script.leading := by
      simp [Script.head, script]
    rw [whole]
    exact opened.append (passes (plain_leading plain) back)
  have literal (back : Text) : Passes ';' (['$', '$'] ++ ['x'] ++ ['$', '$']) back := by
    obtain ⟨settles, quoted⟩ := settles_dollar isTag_body firstAfter_body back
    exact ⟨settles, fun glyph member => by simp [Glyph.isTopLevelChar, quoted glyph member]⟩
  have trailing : Passes ';' (statement.after ++ statement.close) [';'] :=
    passes (plain_trailing plain) _
  have whole := ((head _).append (literal _)).append trailing
  exact (splitTopLevel?_eq_some_iff inert_semicolon).mpr
    ⟨by simp [script], whole.settles, whole.none⟩

include plain in
/-- A statement goes on to its end. -/
theorem cutStatement_eq :
    Script.cutStatement (statement.script.head ++ (['$', '$'] ++ ['x'] ++ ['$', '$'])
        ++ statement.script.trailing) =
      (statement.script.head ++ (['$', '$'] ++ ['x'] ++ ['$', '$']) ++ statement.script.trailing,
        none, []) := by
  rw [Script.cutStatement, find?_remark plain]
  simp only [splitStatement?, splitTopLevel?_semicolon plain, Option.map_some]
  simp [script]

include plain in
/-- **Statements.** The parts of a statement are found where they were laid out. -/
theorem ofText?_text : Script.ofText? statement.text = some statement.script := by
  rw [text_eq]
  exact (opensBody plain).ofText?_eq firstAfter_body (cutStatement_eq plain)

end Statement

end RoutineScripts
