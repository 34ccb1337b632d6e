import RoutineScripts.Proofs.Lexical.Structure
import RoutineScripts.Proofs.Text.Ends
import RoutineScripts.Proofs.Text.Words
import RoutineScripts.Routine.Options

/-!
# Clauses printed in pieces

What the option clauses find in a text of spaced pieces. A clause is found at the first piece that
ends in its keyword, and it is not found when no piece does (`Options.clause?_spaced`,
`Options.clause?_eq_none`). A flag is found only if it is a word of one piece
(`Options.hasWord_spaced`).

The main statement is `Options.ofText_segment`: the options of a routine that declares a type and a
language and nothing else.
-/

namespace RoutineScripts

namespace Options

open Text Recogniser

/-! ### Keywords and flags -/

/-- The test by which a clause is looked for. -/
def clauseTest {α : Type} (word : String) (value? : Text → Option α) :
    Option Char → Text → Option α :=
  fun previous text =>
    if startsWord previous then
      match Recogniser.sequence [.keyword word, .blanks] text with
      | some (_, rest) => value? rest
      | none => none
    else
      none

/-- A clause is looked for by a search. -/
theorem clause?_eq {α : Type} (word : String) (value? : Text → Option α) (segment : Text) :
    clause? word value? segment = (search (clauseTest word value?) none segment).map Prod.snd := rfl

/-- Converting the value of a clause converts what is read. -/
theorem clause?_map {α β : Type} (word : String) (value? : Text → Option α) (convert : α → β)
    (segment : Text) :
    clause? word (fun rest => (value? rest).map convert) segment =
      (clause? word value? segment).map convert := by
  have read (previous : Option Char) (rest : Text) :
      clauseTest word (fun rest => (value? rest).map convert) previous rest =
        (clauseTest word value? previous rest).map convert := by
    rw [clauseTest, clauseTest]
    split
    · split <;> rfl
    · rfl
  rw [clause?_eq, clause?_eq, funext fun previous => funext (read previous), search_map,
    Option.map_map, Option.map_map]
  rfl

/-- A clause is accepted after the end of a word, at its keyword, white space and a value. -/
theorem clauseTest_eq_some_iff {α : Type} {word : String} {value? : Text → Option α}
    {previous : Option Char} {text : Text} {found : α} :
    clauseTest word value? previous text = some found ↔
      startsWord previous = true ∧ ∃ spelled gap rest, text = spelled ++ (gap ++ rest) ∧
        Spells word.toList spelled ∧ gap ≠ [] ∧ (∀ c ∈ gap, isBlank c = true) ∧
        rest.head?.any isBlank = false ∧ value? rest = some found := by
  have read {accepted rest : Text} :
      Recogniser.sequence [.keyword word, .blanks] text = some (accepted, rest) ↔
        ∃ spelled gap, accepted = spelled ++ gap ∧ text = spelled ++ (gap ++ rest) ∧
          Spells word.toList spelled ∧ gap ≠ [] ∧ (∀ c ∈ gap, isBlank c = true) ∧
          rest.head?.any isBlank = false := by
    simp only [Recogniser.sequence, List.foldr_cons, List.foldr_nil, andThen_eq_some_iff,
      keyword_eq_some_iff, blanks_eq_some_iff, Recogniser.nothing, Option.some.injEq,
      Prod.mk.injEq]
    constructor
    · rintro ⟨spelled, _, _, ⟨spells, rfl⟩, ⟨gap, _, _, ⟨some, rfl, blank, ends⟩, ⟨rfl, rfl⟩, rfl⟩,
        rfl⟩
      exact ⟨spelled, gap, by simp, rfl, spells, some, blank, ends⟩
    · rintro ⟨spelled, gap, rfl, rfl, spells, some, blank, ends⟩
      exact ⟨spelled, _, _, ⟨spells, rfl⟩, ⟨gap, _, _, ⟨some, rfl, blank, ends⟩, ⟨rfl, rfl⟩, rfl⟩,
        by simp⟩
  unfold clauseTest
  by_cases starts : startsWord previous = true
  · rw [if_pos starts]
    constructor
    · intro accepted
      split at accepted
      case h_1 taken rest sequence =>
        obtain ⟨spelled, gap, _, whole, spells, some, blank, ends⟩ := read.mp sequence
        exact ⟨starts, spelled, gap, rest, whole, spells, some, blank, ends, accepted⟩
      case h_2 => cases accepted
    · rintro ⟨_, spelled, gap, rest, whole, spells, some, blank, ends, value⟩
      rw [read.mpr ⟨spelled, gap, rfl, whole, spells, some, blank, ends⟩]
      exact value
  · simp [starts]

/-- The test by which a flag is looked for. -/
def wordTest (word : String) : Option Char → Text → Option Unit :=
  fun previous rest =>
    if startsWord previous then
      match Text.afterLead? word.toList rest with
      | some after => if endsWord after then some () else none
      | none => none
    else
      none

/-- A word is accepted after the end of a word when it ends there. -/
theorem wordTest_eq_some_iff {word : String} {previous : Option Char} {text : Text} :
    wordTest word previous text = some () ↔
      startsWord previous = true ∧ ∃ rest, text = word.toList ++ rest ∧ endsWord rest = true := by
  unfold wordTest
  by_cases starts : startsWord previous = true
  · rw [if_pos starts]
    constructor
    · intro accepted
      split at accepted
      case h_1 after lead =>
        split at accepted
        case isTrue ends => exact ⟨starts, after, eq_append_of_afterLead? lead, ends⟩
        case isFalse => cases accepted
      case h_2 => cases accepted
    · rintro ⟨_, rest, rfl, ends⟩
      rw [afterLead?_append]
      simp [ends]
  · simp [starts]

/-- There is no word in a text when none of its occurrences stands alone. -/
theorem hasWord_eq_false_iff {word : String} {text : Text} :
    hasWord word text = false ↔ ∀ front back, text = front ++ word.toList ++ back →
      startsWord front.getLast? = true → ¬ endsWord back = true := by
  have none : hasWord word text = false ↔ search (wordTest word) none text = none := by
    rw [hasWord, ← Bool.not_eq_true, Option.not_isSome_iff_eq_none]
    rfl
  rw [none, search_eq_none_iff_forall]
  constructor
  · rintro refuses front back rfl starts ends
    have refused := refuses front (word.toList ++ back) (by simp)
    rw [Option.or_none, wordTest_eq_some_iff.mpr ⟨starts, back, rfl, ends⟩] at refused
    cases refused
  · rintro lacks passed rest rfl
    cases found : wordTest word (passed.getLast?.or Option.none) rest with
    | none => rfl
    | some value =>
        obtain ⟨starts, back, rfl, ends⟩ := wordTest_eq_some_iff.mp found
        exact absurd ends (lacks passed back (by simp) (by simpa using starts))

/-- There is a word in a text when one of its occurrences stands alone. -/
theorem hasWord_eq_true_iff {word : String} {text : Text} :
    hasWord word text = true ↔ ∃ front back, text = front ++ word.toList ++ back ∧
      startsWord front.getLast? = true ∧ endsWord back = true := by
  rw [← Bool.not_eq_false, hasWord_eq_false_iff]
  simp only [Classical.not_forall, Classical.not_not, exists_prop]

/-! ### What is found in spaced pieces -/

/-- A word that keywords are made of: upper-case letters and no space. -/
structure IsKeyword (word : String) : Prop where
  nonempty : word.toList ≠ [] := by decide
  solid : avoids ' ' word.toList = true := by decide
  upper : keyword word word.toList = some (word.toList, []) := by decide

/-- A keyword is a form of its letters. -/
theorem IsKeyword.spells {word : String} (isKeyword : IsKeyword word) :
    Spells word.toList word.toList :=
  (keyword_eq_some_iff.mp isKeyword.upper).1

/-- One of some keywords, in any form of its letters, as a whole word. -/
def KeywordAt (words : List String) (previous : Option Char) (spelled rest : Text) : Prop :=
  startsWord previous = true ∧ (∃ word ∈ words, Spells word.toList spelled) ∧ endsWord rest = true

/-- A test that accepts only at some keywords. -/
theorem readsWord_keywordAt {β : Type} {test : Option Char → Text → Option β}
    {words : List String} (keywords : ∀ word ∈ words, IsKeyword word)
    (reads : ∀ previous text found, test previous text = some found →
      ∃ spelled rest, text = spelled ++ rest ∧ KeywordAt words previous spelled rest) :
    ReadsWord test (KeywordAt words) := by
  refine ⟨?_, reads⟩
  rintro previous spelled rest ⟨_, ⟨word, member, spells⟩, _⟩
  refine ⟨?_, not_mem_of_spells (keywords word member).solid spells⟩
  rintro rfl
  exact (keywords word member).nonempty (List.eq_nil_of_length_eq_zero spells.length_eq.symm)

/-- A piece of printable ASCII characters that lacks some keywords. -/
structure Lacks (words : List String) (piece : Text) : Prop where
  pieces : ∀ c ∈ piece, isPieceChar c = true
  absent : ∀ word ∈ words, hasWord word piece.asciiUpper = false

instance (words : List String) (piece : Text) : Decidable (Lacks words piece) :=
  decidable_of_iff (piece.all isPieceChar = true ∧
      ∀ word ∈ words, hasWord word piece.asciiUpper = false)
    ⟨fun ⟨pieces, absent⟩ => ⟨List.all_eq_true.mp pieces, absent⟩,
      fun ⟨pieces, absent⟩ => ⟨List.all_eq_true.mpr pieces, absent⟩⟩

namespace Lacks

variable {words : List String} {piece : Text}

theorem visible (lacks : Lacks words piece) : ∀ c ∈ piece, isBlank c = false :=
  fun c member => isBlank_of_isPieceChar (lacks.pieces c member)

/-- A piece that lacks keywords holds no space. -/
theorem noSpace (lacks : Lacks words piece) : ' ' ∉ piece := fun member =>
  absurd (lacks.visible ' ' member) (by decide)

/-- A piece that lacks some keywords lacks each of them. -/
theorem of_mem (lacks : Lacks words piece) {word : String} (member : word ∈ words) :
    Lacks [word] piece :=
  ⟨lacks.pieces, fun _ only => List.mem_singleton.mp only ▸ lacks.absent word member⟩

/-- A piece lacks the same keywords in upper case. -/
theorem asciiUpper (lacks : Lacks words piece) : Lacks words (Text.asciiUpper piece) := by
  refine ⟨?_, ?_⟩
  · intro c member
    obtain ⟨d, inside, rfl⟩ := List.mem_map.mp member
    exact (upper_of_isPieceChar (lacks.pieces d inside)).1
  · rw [asciiUpper_asciiUpper lacks.pieces]
    exact lacks.absent

/-- A piece that lacks some keywords has none of them in any form. -/
theorem not_keywordAt (lacks : Lacks words piece) {front spelled rest tail : Text}
    (separates : Separates tail) (split : piece = front ++ spelled ++ rest) :
    ¬ KeywordAt words (some (front.getLast?.getD ' ')) spelled (rest ++ tail) := by
  rintro ⟨starts, ⟨word, member, spells⟩, ends⟩
  subst split
  have pieces := lacks.pieces
  simp only [List.mem_append, or_imp, forall_and] at pieces
  rw [startsWord_getD] at starts
  rw [endsWord_append _ separates] at ends
  refine hasWord_eq_false_iff.mp (lacks.absent word member) front.asciiUpper rest.asciiUpper
    ?_ ?_ ?_
  · rw [← asciiUpper_of_spells pieces.1.2 spells]
    simp [Text.asciiUpper]
  · rw [startsWord_asciiUpper pieces.1.1, starts]
  · rw [endsWord_asciiUpper pieces.2, ends]

end Lacks

section Clauses

variable {α : Type} {word : String} {value? : Text → Option α}

/-- The test for a clause reads its keyword as a word. -/
theorem readsWord_clauseTest (isKeyword : IsKeyword word) :
    ReadsWord (clauseTest word value?) (KeywordAt [word]) := by
  refine readsWord_keywordAt (by simpa using isKeyword) ?_
  intro previous text found accepted
  obtain ⟨starts, spelled, gap, rest, rfl, spells, some, blank, _⟩ :=
    clauseTest_eq_some_iff.mp accepted
  obtain ⟨c, others, rfl⟩ := List.exists_cons_of_ne_nil some
  have notWord := isWordChar_of_isBlank (blank c List.mem_cons_self)
  exact ⟨spelled, _, rfl, starts, ⟨word, by simp, spells⟩, by simp [endsWord, notWord]⟩

/-- **Absent clauses.** There is no clause when its keyword is a word of no piece. -/
theorem clause?_eq_none (isKeyword : IsKeyword word) {pieces : List Text}
    (lacks : ∀ piece ∈ pieces, Lacks [word] piece) :
    clause? word value? (spaced pieces) = none := by
  have reads : ReadsWord (clauseTest word value?) _ := readsWord_clauseTest isKeyword
  have missed : search (clauseTest word value?) none (spaced pieces) = none := by
    refine search_eq_none_iff.mpr ⟨reads.misses_spaced separates_nil ?_ none,
      reads.eq_none separates_nil _⟩
    exact fun piece member _ _ _ _ separates => (lacks piece member).not_keywordAt separates
  rw [clause?_eq, missed]
  rfl

/-- **First clauses.** A clause is read after the first piece that is its keyword, in any form of
its letters. -/
theorem clause?_spaced (isKeyword : IsKeyword word) {spelled : Text}
    (spells : Spells word.toList spelled) (front : List Text) {back : List Text} {next : Text}
    (lacks : ∀ piece ∈ front, Lacks [word] piece)
    (visible : (next ++ spaced back).head?.any isBlank = false) {found : α}
    (value : value? (next ++ spaced back) = some found) :
    clause? word value? (spaced (front ++ spelled :: next :: back)) = some found := by
  let rest : Text := spelled ++ ([' '] ++ (next ++ spaced back))
  have whole : spaced (front ++ spelled :: next :: back) = spaced front ++ [' '] ++ rest := by
    simp [rest, spaced_append, spaced_cons]
  have reads : ReadsWord (clauseTest word value?) _ := readsWord_clauseTest isKeyword
  have misses : Misses (clauseTest word value?) none (spaced front ++ [' ']) rest := by
    refine misses_append.mpr ⟨reads.misses_spaced (separates_space _) ?_ none,
      reads.misses_space _ _⟩
    exact fun piece member _ _ _ _ separates => (lacks piece member).not_keywordAt separates
  have accepts : clauseTest word value? (some ' ') rest = some found :=
    clauseTest_eq_some_iff.mpr ⟨by decide, spelled, [' '], next ++ spaced back, rfl, spells,
      by simp, isBlank_of_mem_space, visible, value⟩
  have located : search (clauseTest word value?) none (spaced front ++ [' '] ++ rest) =
      some (spaced front ++ [' '], found) :=
    search_eq_some_iff.mpr ⟨rest, rfl, misses, by simpa using accepts⟩
  rw [clause?_eq, whole, located]
  rfl

end Clauses

/-- A flag that is a word of no piece is not set. -/
theorem hasWord_spaced {word : String} (isKeyword : IsKeyword word) {pieces : List Text}
    (lacks : ∀ piece ∈ pieces, Lacks [word] piece) : hasWord word (spaced pieces) = false := by
  have reads : ReadsWord (wordTest word) (KeywordAt [word]) := by
    refine readsWord_keywordAt (by simpa using isKeyword) ?_
    intro previous text found accepted
    obtain ⟨starts, rest, rfl, ends⟩ := wordTest_eq_some_iff.mp accepted
    exact ⟨_, rest, rfl, starts, ⟨word, by simp, isKeyword.spells⟩, ends⟩
  have missed : search (wordTest word) none (spaced pieces) = none := by
    refine search_eq_none_iff.mpr ⟨reads.misses_spaced separates_nil ?_ none,
      reads.eq_none separates_nil _⟩
    exact fun piece member _ _ _ _ separates => (lacks piece member).not_keywordAt separates
  exact congrArg Option.isSome missed

/-- **Flags.** A flag is set when it is a word of a piece. -/
theorem hasWord_spaced_eq_any {word : String} (isKeyword : IsKeyword word) {pieces : List Text}
    (upper : ∀ piece ∈ pieces, piece.asciiUpper = piece)
    (printable : ∀ piece ∈ pieces, ∀ c ∈ piece, isPieceChar c = true) :
    hasWord word (spaced pieces) = pieces.any (hasWord word) := by
  cases found : pieces.any (hasWord word) with
  | false =>
      refine hasWord_spaced isKeyword fun piece member =>
        ⟨printable piece member, List.forall_mem_singleton.mpr ?_⟩
      rw [upper piece member]
      simpa using List.any_eq_false.mp found piece member
  | true =>
      obtain ⟨piece, member, has⟩ := List.any_eq_true.mp found
      obtain ⟨first, last, rfl⟩ := List.append_of_mem member
      obtain ⟨front, back, rfl, starts, ends⟩ := hasWord_eq_true_iff.mp has
      refine hasWord_eq_true_iff.mpr ⟨spaced first ++ ' ' :: front, back ++ spaced last, ?_, ?_, ?_⟩
      · simp [spaced_append, spaced_cons]
      · rw [List.getLast?_append, List.getLast?_cons, Option.some_or, startsWord_getD, starts]
      · have separates := separates_spaced last [] separates_nil
        rw [List.append_nil] at separates
        rw [endsWord_append back separates, ends]

/-- A phrase joins two words, so it is not found where no piece ends like the first one before a
piece that starts like the second. -/
theorem hasPhrase_spaced {phrase : String} {a b : Text} (joins : a ++ ' ' :: b <:+: phrase.toList)
    (nonempty : a ≠ []) (solidFirst : ' ' ∉ a) (solidSecond : ' ' ∉ b) {pieces : List Text}
    (solid : ∀ piece ∈ pieces, ' ' ∉ piece) (unjoined : Unjoined a b pieces) :
    hasPhrase phrase (spaced pieces) = false := by
  cases found : splitFirst? phrase.toList (spaced pieces) with
  | none => simp [hasPhrase, occursIn, found]
  | some parts =>
      obtain ⟨before, after⟩ := parts
      have inside : phrase.toList <:+: spaced pieces :=
        ⟨before, after, (eq_append_of_splitFirst? found).symm⟩
      exact absurd (joins.trans inside)
        (not_infix_spaced nonempty solidFirst solidSecond solid unjoined)

/-! ### The type and the language -/

/-- The test by which the end of a type is looked for. -/
def terminatorTest (previous : Option Char) (text : Text) : Option Unit :=
  if terminatorAt previous text then some () else none

/-- The end of a type is accepted at one of the words that end it. -/
theorem terminatorTest_eq_some_iff {previous : Option Char} {text : Text} :
    terminatorTest previous text = some () ↔
      ∃ spelled rest, text = spelled ++ rest ∧ KeywordAt terminators previous spelled rest := by
  have accepts : terminatorTest previous text = some () ↔ terminatorAt previous text = true := by
    cases found : terminatorAt previous text <;> simp [terminatorTest, found]
  rw [accepts, terminatorAt, Bool.and_eq_true, List.any_eq_true]
  constructor
  · rintro ⟨starts, word, member, accepted⟩
    split at accepted
    case h_1 spelled rest found =>
      obtain ⟨spells, whole⟩ := keyword_eq_some_iff.mp found
      exact ⟨spelled, rest, whole, starts, ⟨word, member, spells⟩, accepted⟩
    case h_2 => cases accepted
  · rintro ⟨spelled, rest, whole, starts, ⟨word, member, spells⟩, ends⟩
    refine ⟨starts, word, member, ?_⟩
    rw [keyword_eq_some_iff.mpr ⟨spells, whole⟩]
    exact ends

/-- The words that end a type are keywords. -/
theorem isKeyword_of_mem_terminators {word : String} (member : word ∈ terminators) :
    IsKeyword word := by
  have checked : ∀ word ∈ terminators, word.toList ≠ [] ∧ avoids ' ' word.toList = true ∧
      keyword word word.toList = some (word.toList, []) := by decide
  obtain ⟨nonempty, solid, upper⟩ := checked word member
  exact ⟨nonempty, solid, upper⟩

theorem untilTerminator_cons {c : Char} {rest passed : Text}
    (located : search terminatorTest (some c) rest = some (passed, ())) :
    untilTerminator (c :: rest) = c :: passed := by
  unfold terminatorTest at located
  rw [untilTerminator, located]

/-- A type without a word that ends it goes on to the piece that is such a word, in any form of its
letters. -/
theorem untilTerminator_spaced {type : Text} (nonempty : type ≠ []) {others : List Text}
    (lacks : ∀ piece ∈ type :: others, Lacks terminators piece) {word : String}
    (member : word ∈ terminators) {spelled : Text} (spells : Spells word.toList spelled)
    (back : List Text) :
    untilTerminator (type ++ spaced (others ++ spelled :: back)) =
      type ++ (spaced others ++ [' ']) := by
  have reads : ReadsWord terminatorTest (KeywordAt terminators) :=
    readsWord_keywordAt (fun _ => isKeyword_of_mem_terminators) fun _ _ _ =>
      terminatorTest_eq_some_iff.mp
  obtain ⟨c, type, rfl⟩ := List.exists_cons_of_ne_nil nonempty
  obtain ⟨lacksFirst, lacksOthers⟩ := List.forall_mem_cons.mp lacks
  let rest : Text := spelled ++ spaced back
  have whole : c :: type ++ spaced (others ++ spelled :: back) =
      c :: (type ++ (spaced others ++ [' ']) ++ rest) := by
    simp [rest, spaced_append, spaced_cons]
  have misses : Misses terminatorTest (some c) (type ++ (spaced others ++ [' '])) rest := by
    have separates := separates_spaced others ([' '] ++ rest) (separates_space _)
    rw [← List.append_assoc] at separates
    have inType : Misses terminatorTest (some ' ') (c :: type) (spaced others ++ [' '] ++ rest) :=
      reads.misses_piece separates fun _ _ _ => lacksFirst.not_keywordAt separates
    refine misses_append.mpr ⟨(misses_cons.mp inType).2, misses_append.mpr ⟨?_, ?_⟩⟩
    · refine reads.misses_spaced (separates_space _) ?_ _
      exact fun piece inside _ _ _ _ apart => (lacksOthers piece inside).not_keywordAt apart
    · exact reads.misses_space _ _
  have accepts : terminatorTest (some ' ') rest = some () := by
    have ends := separates_spaced back [] separates_nil
    rw [List.append_nil] at ends
    exact terminatorTest_eq_some_iff.mpr ⟨spelled, spaced back, rfl, by decide,
      ⟨word, member, spells⟩, endsWord_append [] ends⟩
  have located : search terminatorTest (some c) (type ++ (spaced others ++ [' ']) ++ rest) =
      some (type ++ (spaced others ++ [' ']), ()) :=
    search_eq_some_iff.mpr ⟨rest, rfl, misses, by simpa using accepts⟩
  rw [whole, untilTerminator_cons located]
  rfl

/-- The name of a language is read up to a character that is none of an identifier. -/
theorem languageName?_append {language rest : Text} (nonempty : language ≠ [])
    (identifier : ∀ c ∈ language, isIdentifierChar c = true)
    (stops : rest.head?.any isFoldedIdentifierChar = false) :
    languageName? (language ++ rest) = some language := by
  obtain ⟨c, others, rfl⟩ := List.exists_cons_of_ne_nil nonempty
  have unquoted : c ≠ '"' := by
    rintro rfl
    exact absurd (identifier '"' List.mem_cons_self) (by decide)
  have folded : ∀ d ∈ c :: others, isFoldedIdentifierChar d = true := fun d member => by
    simp [isFoldedIdentifierChar, identifier d member]
  have read : Recogniser.run1 isFoldedIdentifierChar (c :: others ++ rest) =
      some (c :: others, rest) :=
    run1_eq_some_iff.mpr ⟨List.cons_ne_nil _ _, rfl, folded, stops⟩
  rw [languageName?, read]
  · rfl
  · exact fun rest quoted => unquoted (List.cons.inj quoted).1

/-- The name of a language is read up to the next piece. -/
theorem languageName?_spaced {language : Text} (nonempty : language ≠ [])
    (identifier : ∀ c ∈ language, isIdentifierChar c = true) (back : List Text) :
    languageName? (language ++ spaced back) = some language :=
  languageName?_append nonempty identifier (by cases back <;> rfl)

/-! ### The options of a declaration -/

/-- A text without quotes and comments is not masked. -/
theorem maskComments_of_plain {text : Text} (plain : ∀ c ∈ text, c ∉ ['-', '/', '$', '\'', '"']) :
    text.maskComments = text := by
  induction text with
  | nil => rfl
  | cons c rest ih =>
      obtain ⟨here, later⟩ := List.forall_mem_cons.mp plain
      have kept := ih later
      simp only [maskComments] at kept ⊢
      rw [scan_cons_of_plain here, List.flatMap_cons, kept]
      rfl

/-- The characters of a piece have the upper case of ASCII. -/
theorem flatMap_upperForm {piece : Text} (printable : ∀ c ∈ piece, isPieceChar c = true) :
    piece.flatMap upperForm = piece.asciiUpper := by
  induction piece with
  | nil => rfl
  | cons c piece ih =>
      obtain ⟨here, later⟩ := List.forall_mem_cons.mp printable
      have upper : upperForm c = [c.toUpper] := by
        unfold upperForm
        split
        all_goals first | rfl | exact absurd here (by decide)
      rw [List.flatMap_cons, upper, ih later]
      rfl

/-- The upper case of pieces is that of each. -/
theorem flatMap_upperForm_spaced {pieces : List Text}
    (printable : ∀ piece ∈ pieces, ∀ c ∈ piece, isPieceChar c = true) :
    (spaced pieces).flatMap upperForm = spaced (pieces.map asciiUpper) := by
  induction pieces with
  | nil => rfl
  | cons piece pieces ih =>
      obtain ⟨here, later⟩ := List.forall_mem_cons.mp printable
      rw [spaced_cons, List.cons_append, List.flatMap_cons, List.flatMap_append,
        flatMap_upperForm here, ih later]
      rfl

/-- Flags are looked for in the pieces that are not empty, in upper case. -/
theorem flagText_spaced {piece : Text} {pieces : List Text} (nonempty : piece ≠ [])
    (printable : ∀ other ∈ piece :: pieces, ∀ c ∈ other, isPieceChar c = true) :
    flagText (spaced (piece :: pieces)) =
      spaced (((piece :: pieces).filter (!·.isEmpty)).map asciiUpper ++ [[]]) := by
  have visible : ∀ other ∈ piece :: pieces, ∀ c ∈ other, isBlank c = false :=
    fun other member c inside => isBlank_of_isPieceChar (printable other member c inside)
  have kept : ∀ other ∈ (piece :: pieces).filter (!·.isEmpty), ∀ c ∈ other,
      isPieceChar c = true :=
    fun other member => printable other (List.mem_filter.mp member).1
  have upper := flatMap_upperForm_spaced kept
  rw [← collapse_spaced nonempty visible, List.flatMap_cons] at upper
  rw [flagText, spaced_append, ← upper]
  rfl

/-- A type and a language that can be declared: neither holds a word that ends a type. -/
structure Declares (type language : Text) : Prop where
  typed : type ≠ []
  named : language ≠ []
  lacksType : Lacks terminators type
  lacksLanguage : Lacks terminators language
  identifier : ∀ c ∈ language, isIdentifierChar c = true

/-- The pieces before a body literal when a type and a language are declared. The last one is
empty, so that a space stands before the literal. -/
def leading (type language : Text) : List Text :=
  ["RETURNS".toList, type, "LANGUAGE".toList, language, "AS".toList, []]

/-- The pieces around the literal when a semicolon follows it. -/
def segment (type language : Text) : List Text :=
  leading type language ++ [[';']]

/-- The pieces in which the flags of such a segment are looked for. -/
def flagPieces (type language : Text) : List Text :=
  ["RETURNS".toList, type.asciiUpper, "LANGUAGE".toList, language.asciiUpper, "AS".toList, [';'],
    []]

/-- The pieces that every such segment has. -/
def fixedPieces : List Text :=
  ["RETURNS".toList, "LANGUAGE".toList, "AS".toList, [], [';']]

/-- The words that end a type, without the two that every segment has. -/
theorem lacks_fixedPieces : ∀ word ∈ terminators, word ∉ ["LANGUAGE", "AS"] →
    ∀ piece ∈ fixedPieces, Lacks [word] piece := by
  decide

section Segment

variable {type language : Text}

/-- What holds of the type, of the language and of the fixed words holds of all pieces. -/
theorem forall_mem_segment {property : Text → Prop} (ofType : property type)
    (ofLanguage : property language) (fixed : ∀ piece ∈ fixedPieces, property piece) :
    ∀ piece ∈ segment type language, property piece := by
  simp only [segment, leading, fixedPieces, List.cons_append, List.nil_append,
    List.forall_mem_cons] at fixed ⊢
  obtain ⟨returns, tongue, as, empty, semicolon, none⟩ := fixed
  exact ⟨returns, ofType, tongue, ofLanguage, as, empty, semicolon, none⟩

namespace Declares

/-- The characters of a segment may stand in pieces. -/
theorem printable (declares : Declares type language) :
    ∀ piece ∈ segment type language, ∀ c ∈ piece, isPieceChar c = true :=
  forall_mem_segment declares.lacksType.pieces declares.lacksLanguage.pieces
    fun piece member => (lacks_fixedPieces "COST" (by decide) (by decide) piece member).pieces

/-- A segment holds no comment. -/
theorem maskComments_eq (declares : Declares type language) :
    maskComments (spaced (segment type language)) = spaced (segment type language) :=
  maskComments_of_plain fun _ member => (plain_of_mem_spaced declares.printable member).1

/-- Where flags are looked for, the segment is in upper case and has no gap. -/
theorem flagText_eq (declares : Declares type language) :
    flagText (spaced (segment type language)) = spaced (flagPieces type language) := by
  have kept : (segment type language).filter (!·.isEmpty) =
      ["RETURNS".toList, type, "LANGUAGE".toList, language, "AS".toList, [';']] := by
    simp [segment, leading, declares.typed, declares.named]
  have flags : flagText (spaced (segment type language)) =
      spaced (((segment type language).filter (!·.isEmpty)).map asciiUpper ++ [[]]) :=
    flagText_spaced (by decide) declares.printable
  rw [flags, kept]
  rfl

/-- The type of a segment is the one that is declared. -/
theorem returnsIn_eq (declares : Declares type language) :
    returnsIn (spaced (segment type language)) = type := by
  obtain ⟨c, others, rfl⟩ := List.exists_cons_of_ne_nil declares.typed
  let back := [language, "AS".toList, [], [';']]
  have visible := declares.lacksType.visible
  have starts (back : Text) : (c :: others ++ back).head?.any isBlank = false :=
    visible c List.mem_cons_self
  have ends : (c :: others).getLast?.any isBlank = false := by
    cases last : (c :: others).getLast? with
    | none => rfl
    | some d => exact visible d (List.mem_of_getLast? last)
  have found : clause? "RETURNS" some (spaced (segment (c :: others) language)) =
      some ((c :: others) ++ spaced ("LANGUAGE".toList :: back)) :=
    have returns : IsKeyword "RETURNS" := ⟨by decide, by decide, by decide⟩
    clause?_spaced returns returns.spells [] (fun _ member => absurd member List.not_mem_nil)
      (starts _) rfl
  have member : "LANGUAGE" ∈ terminators := by decide
  have read := untilTerminator_spaced declares.typed
    (List.forall_mem_singleton.mpr declares.lacksType) member
    (isKeyword_of_mem_terminators member).spells back
  rw [returnsIn, found]
  simp only [List.nil_append] at read
  simp only [read]
  exact trim_append [' '] (starts []) ends isBlank_of_mem_space

/-- The language of a segment is the one that is declared. -/
theorem languageIn_eq (declares : Declares type language) :
    languageIn (spaced (segment type language)) = Language.resolve (some language) := by
  obtain ⟨c, others, rfl⟩ := List.exists_cons_of_ne_nil declares.named
  have starts (back : Text) : (c :: others ++ back).head?.any isBlank = false :=
    declares.lacksLanguage.visible c List.mem_cons_self
  have lacks : ∀ piece ∈ ["RETURNS".toList, type], Lacks ["LANGUAGE"] piece := by
    simp only [List.forall_mem_cons]
    exact ⟨by decide, declares.lacksType.of_mem (by decide),
      fun _ member => absurd member List.not_mem_nil⟩
  have read := languageName?_spaced declares.named declares.identifier ["AS".toList, [], [';']]
  have isKeyword : IsKeyword "LANGUAGE" := isKeyword_of_mem_terminators (by decide)
  exact congrArg Language.resolve
    (clause?_spaced isKeyword isKeyword.spells ["RETURNS".toList, type] lacks (starts _) read)

/-- No other clause is found. -/
theorem clause?_eq_none (declares : Declares type language) (word : String)
    (member : word ∈ terminators) (other : word ∉ ["LANGUAGE", "AS"]) {α : Type}
    (value? : Text → Option α) : clause? word value? (spaced (segment type language)) = none :=
  Options.clause?_eq_none (isKeyword_of_mem_terminators member)
    (forall_mem_segment (declares.lacksType.of_mem member) (declares.lacksLanguage.of_mem member)
      (lacks_fixedPieces word member other))

/-- Apart from the keywords of the language and the body, no piece is a word that ends a type. -/
theorem lacks_flagPieces (declares : Declares type language) {word : String}
    (member : word ∈ terminators) (other : word ∉ ["LANGUAGE", "AS"]) :
    ∀ piece ∈ flagPieces type language, Lacks [word] piece := by
  have fixed := lacks_fixedPieces word member other
  simp only [fixedPieces, flagPieces, List.forall_mem_cons] at fixed ⊢
  obtain ⟨returns, tongue, as, empty, semicolon, none⟩ := fixed
  exact ⟨returns, (declares.lacksType.of_mem member).asciiUpper, tongue,
    (declares.lacksLanguage.of_mem member).asciiUpper, as, semicolon, empty, none⟩

/-- No flag is set. -/
theorem hasWord_eq_false (declares : Declares type language) (word : String)
    (member : word ∈ terminators) (other : word ∉ ["LANGUAGE", "AS"]) :
    hasWord word (spaced (flagPieces type language)) = false :=
  hasWord_spaced (isKeyword_of_mem_terminators member) (declares.lacks_flagPieces member other)

/-- The phrases of two words are not found: after a type comes `LANGUAGE`, and after a language
comes `AS`. -/
theorem hasPhrase_eq_false (declares : Declares type language) {phrase : String} {a b : Char}
    (joins : [a] ++ ' ' :: [b] <:+: phrase.toList) (visible : a ≠ ' ' ∧ b ≠ ' ')
    (starts : b ∉ ['L', 'A']) (ends : a ∉ ['S', 'E']) :
    hasPhrase phrase (spaced (flagPieces type language)) = false := by
  refine hasPhrase_spaced joins (List.cons_ne_nil _ _) (by simpa using visible.1.symm)
    (by simpa using visible.2.symm) (fun piece member => ?_) ?_
  · have cost : "COST" ∈ terminators := by decide
    exact (declares.lacks_flagPieces cost (by decide) piece member).noSpace
  · simp only [List.mem_cons, List.not_mem_nil, or_false, not_or] at starts ends
    have last {c : Char} {piece : Text} (joint : [a] <:+ piece) (same : piece.getLast? = some c) :
        a = c := by
      obtain ⟨front, rfl⟩ := joint
      simpa using same
    have first {c : Char} {piece : Text} (joint : [b] <+: c :: piece) : b = c :=
      (List.cons_prefix_cons.mp joint).1
    exact ⟨fun joint => ends.1 (last joint.1 rfl), fun joint => starts.1 (first joint.2),
      fun joint => ends.2 (last joint.1 rfl), fun joint => starts.2 (first joint.2),
      fun joint => ends.1 (last joint.1 rfl), fun joint => by simp at joint, trivial⟩

end Declares

/-- **Declared type and language.** A segment that declares a type and a language has these and
the default of every other option. -/
theorem ofText_segment (declares : Declares type language) :
    ofText (spaced (segment type language)) =
      { returns := type
        language := Language.resolve (some language)
        volatility := .volatile
        securityDefiner := false
        leakproof := false
        strict := false
        cost := none
        rows := none
        window := false
        parallel := .serial } := by
  have flag := declares.hasWord_eq_false
  have definer : hasPhrase "SECURITY DEFINER" (spaced (flagPieces type language)) = false :=
    declares.hasPhrase_eq_false ⟨"SECURIT".toList, "EFINER".toList, rfl⟩ (by decide) (by decide)
      (by decide)
  have returnsNull :
      hasPhrase "RETURNS NULL ON NULL INPUT" (spaced (flagPieces type language)) = false :=
    declares.hasPhrase_eq_false ⟨"RETURNS NUL".toList, "N NULL INPUT".toList, rfl⟩ (by decide)
      (by decide) (by decide)
  have calledOnNull :
      hasPhrase "CALLED ON NULL INPUT" (spaced (flagPieces type language)) = false :=
    declares.hasPhrase_eq_false ⟨"CALLE".toList, "N NULL INPUT".toList, rfl⟩ (by decide)
      (by decide) (by decide)
  have parallel : parallelIn (spaced (segment type language)) = .serial := by
    rw [parallelIn, declares.clause?_eq_none "PARALLEL" (by decide) (by decide)]
  have volatility : volatilityIn (spaced (flagPieces type language)) = .volatile := by
    rw [volatilityIn, flag "IMMUTABLE" (by decide) (by decide),
      flag "STABLE" (by decide) (by decide)]
    rfl
  simp only [ofText, declares.maskComments_eq, declares.flagText_eq, declares.returnsIn_eq,
    declares.languageIn_eq, volatility, definer, flag "LEAKPROOF" (by decide) (by decide),
    flag "STRICT" (by decide) (by decide), returnsNull, calledOnNull, numberIn,
    declares.clause?_eq_none "COST" (by decide) (by decide),
    declares.clause?_eq_none "ROWS" (by decide) (by decide),
    flag "WINDOW" (by decide) (by decide), parallel, Bool.false_and, Bool.or_false]

end Segment

end Options

end RoutineScripts
