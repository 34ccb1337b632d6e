import RoutineScripts.Proofs.Text.Recogniser
import RoutineScripts.Proofs.Text.Search
import RoutineScripts.Text.WordCharacter

/-!
# Words between spaces

A clause is printed as pieces with a space in front of each (`Text.spaced`). A test that starts by
reading something without a space can accept only inside a piece, whatever the pieces around it are
(`Text.ReadsWord.misses_spaced`). So a keyword is found in such a text only if it is found in one
of the pieces. Two words with a space between them are found only where one piece ends with the
first and the next one starts with the second (`Text.not_infix_spaced`).

Pieces are made of printable ASCII characters that open nothing (`isPieceChar`). For these the
questions about letter case and word boundaries are settled by a finite check
(`upper_of_isPieceChar`).
-/

namespace RoutineScripts

/-- The characters of type names: those of identifiers, and the dot and brackets of qualified names
and arrays. -/
def isTypeChar (c : Char) : Bool :=
  isIdentifierChar c || c == '.' || c == '[' || c == ']'

/-- The characters of type names, and the end of a statement. -/
def isPieceChar (c : Char) : Bool :=
  isTypeChar c || c == ';'

/-- The characters of an identifier may stand in a type. -/
theorem isTypeChar_of_isIdentifierChar {c : Char} (identifier : isIdentifierChar c = true) :
    isTypeChar c = true := by
  simp [isTypeChar, identifier]

/-- The characters of a type may stand in a piece. -/
theorem isPieceChar_of_isTypeChar {c : Char} (typeChar : isTypeChar c = true) :
    isPieceChar c = true := by
  simp [isPieceChar, typeChar]

/-- The characters of an identifier are ASCII. -/
theorem toNat_lt_of_isIdentifierChar {c : Char} (identifier : isIdentifierChar c = true) :
    c.toNat < 128 := by
  have bound (last : Char) (small : last.toNat < 128) (within : c.val ≤ last.val) :
      c.toNat < 128 :=
    Nat.lt_of_le_of_lt (UInt32.le_iff_toNat_le.mp within) small
  rcases Bool.or_eq_true_iff.mp identifier with letterOrDigit | underscore
  · rcases Bool.or_eq_true_iff.mp letterOrDigit with letter | digit
    · rcases Bool.or_eq_true_iff.mp letter with upper | lower
      · exact bound 'Z' (by decide) (of_decide_eq_true upper).2
      · exact bound 'z' (by decide) (of_decide_eq_true (Bool.and_eq_true_iff.mp lower).2)
    · exact bound '9' (by decide) (of_decide_eq_true (Bool.and_eq_true_iff.mp digit).2)
  · rw [eq_of_beq underscore]
    decide

/-- The characters of a piece are ASCII. -/
theorem toNat_lt_of_isPieceChar {c : Char} (piece : isPieceChar c = true) : c.toNat < 128 := by
  simp only [isPieceChar, isTypeChar, Bool.or_eq_true, beq_iff_eq] at piece
  rcases piece with (((identifier | rfl) | rfl) | rfl) | rfl
  · exact toNat_lt_of_isIdentifierChar identifier
  all_goals decide

/-- In a piece, the word characters are those of identifiers. -/
theorem isWordChar_of_isPieceChar {c : Char} (piece : isPieceChar c = true) :
    isWordChar c = isIdentifierChar c :=
  if_pos (toNat_lt_of_isPieceChar piece)

/-- No character of a piece opens a quote, a comment or a group. -/
theorem plain_of_isPieceChar {c : Char} (piece : isPieceChar c = true) :
    c ∉ ['-', '/', '$', '\'', '"'] ∧ c ∉ ['(', ')'] := by
  simp only [List.mem_cons, List.not_mem_nil, or_false, not_or]
  refine ⟨⟨?_, ?_, ?_, ?_, ?_⟩, ?_, ?_⟩ <;>
    (rintro rfl; exact absurd piece (by decide))

/-- The code points of white space. -/
def blankCodes : List Nat :=
  List.range' 9 5 ++ [0x20, 0x85, 0xA0, 0x1680] ++ List.range' 0x2000 11
    ++ [0x2028, 0x2029, 0x202F, 0x205F, 0x3000]

/-- What is checked for each code point of white space holds of every blank. -/
theorem eq_false_of_isBlank {test : Char → Bool}
    (checked : ∀ code ∈ blankCodes, test (Char.ofNat code) = false) {c : Char}
    (blank : isBlank c = true) : test c = false := by
  have listed : c.toNat ∈ blankCodes := by
    simp only [isBlank, Bool.or_eq_true, Bool.and_eq_true, decide_eq_true_eq, beq_iff_eq] at blank
    simp only [blankCodes, List.mem_append, List.mem_range'_1, List.mem_cons, List.not_mem_nil]
    omega
  simpa using checked c.toNat listed

/-- The code points of the forms of ASCII letters: those of ASCII, the long s and the Kelvin
sign. -/
def formCodes : List Nat :=
  List.range 128 ++ [0x17F, 0x212A]

/-- What is checked for each code point of the forms of a letter holds of every form. -/
theorem eq_true_of_isFormOf {test : Char → Bool} {letter c : Char} (ascii : letter.toNat < 128)
    (checked : ∀ code ∈ formCodes, isFormOf letter (Char.ofNat code) = true →
      test (Char.ofNat code) = true)
    (form : isFormOf letter c = true) : test c = true := by
  have listed : c.toNat ∈ formCodes := by
    simp only [isFormOf, Bool.or_eq_true, Bool.and_eq_true, beq_iff_eq] at form
    rcases form with (upper | ⟨_, rfl⟩) | ⟨_, rfl⟩
    · refine List.mem_append_left _ (List.mem_range.mpr ?_)
      by_cases lower : 'a'.val ≤ c.val ∧ c.val ≤ 'z'.val
      · exact Nat.lt_of_le_of_lt (UInt32.le_iff_toNat_le.mp lower.2) (by decide)
      · have kept : c.toUpper = c := dif_neg lower
        rwa [← kept, upper]
    · decide
    · decide
  have here := checked c.toNat listed
  rw [Char.ofNat_toNat] at here
  exact here form

/-- White space ends every word. -/
theorem isWordChar_of_isBlank {c : Char} (blank : isBlank c = true) : isWordChar c = false :=
  eq_false_of_isBlank (by decide +kernel) blank

/-- The narrow white space between a keyword and a literal is white space. -/
theorem isBlank_of_isAsciiBlank {c : Char} (blank : isAsciiBlank c = true) : isBlank c = true := by
  simp only [isAsciiBlank, Bool.or_eq_true, beq_iff_eq] at blank
  rcases blank with (((rfl | rfl) | rfl) | rfl) | rfl <;> decide

/-- No character of a piece is white space. -/
theorem isBlank_of_isPieceChar {c : Char} (piece : isPieceChar c = true) : isBlank c = false := by
  rw [← Bool.not_eq_true]
  intro blank
  have noIdentifier : isIdentifierChar c = false := by
    rw [← isWordChar_of_isPieceChar piece]
    exact isWordChar_of_isBlank blank
  simp only [isPieceChar, isTypeChar, noIdentifier, Bool.or_eq_true, beq_iff_eq,
    Bool.false_eq_true, false_or] at piece
  rcases piece with ((rfl | rfl) | rfl) | rfl <;> exact absurd blank (by decide)

/-- The forms of a letter outside ASCII are no piece characters. -/
theorem toUpper_of_isFormOf {letter c : Char} (piece : isPieceChar c = true)
    (form : isFormOf letter c = true) : c.toUpper = letter := by
  have long : c ≠ 'ſ' := by
    rintro rfl
    exact absurd piece (by decide)
  have kelvin : c ≠ '\u212A' := by
    rintro rfl
    exact absurd piece (by decide)
  simpa [isFormOf, long, kelvin] using form

/-- The upper-case form of a piece character is one, of the same kind. This is checked for the
characters below 128. -/
theorem upper_of_isPieceChar {c : Char} (piece : isPieceChar c = true) :
    isPieceChar c.toUpper = true ∧ c.toUpper.toUpper = c.toUpper ∧
      c.toLower.toUpper = c.toUpper ∧ isIdentifierChar c.toUpper = isIdentifierChar c := by
  have checked : ∀ n < 128, isPieceChar (Char.ofNat n) = true →
      isPieceChar (Char.ofNat n).toUpper = true ∧
        (Char.ofNat n).toUpper.toUpper = (Char.ofNat n).toUpper ∧
        (Char.ofNat n).toLower.toUpper = (Char.ofNat n).toUpper ∧
        isIdentifierChar (Char.ofNat n).toUpper = isIdentifierChar (Char.ofNat n) := by
    decide
  have here := checked c.toNat (toNat_lt_of_isPieceChar piece)
  rw [Char.ofNat_toNat] at here
  exact here piece

/-- Upper case keeps the word characters of a piece. -/
theorem isWordChar_toUpper {c : Char} (piece : isPieceChar c = true) :
    isWordChar c.toUpper = isWordChar c := by
  obtain ⟨isPiece, _, _, identifier⟩ := upper_of_isPieceChar piece
  rw [isWordChar_of_isPieceChar isPiece, isWordChar_of_isPieceChar piece, identifier]

namespace Text

/-- The upper case of a spelling is its letters. -/
theorem asciiUpper_of_spells {letters : List Char} {word : Text}
    (pieces : ∀ c ∈ word, isPieceChar c = true) (spells : Recogniser.Spells letters word) :
    word.asciiUpper = letters := by
  induction letters generalizing word with
  | nil =>
      cases word with
      | nil => rfl
      | cons c word => cases spells
  | cons letter letters ih =>
      cases word with
      | nil => cases spells
      | cons c word =>
          obtain ⟨here, later⟩ := List.forall_mem_cons.mp pieces
          rw [asciiUpper, List.map_cons, toUpper_of_isFormOf here spells.1]
          exact congrArg (letter :: ·) (ih later spells.2)

/-- Upper case is idempotent on a piece. -/
theorem asciiUpper_asciiUpper {text : Text} (pieces : ∀ c ∈ text, isPieceChar c = true) :
    text.asciiUpper.asciiUpper = text.asciiUpper := by
  simp only [asciiUpper, List.map_map]
  exact List.map_congr_left fun c member => (upper_of_isPieceChar (pieces c member)).2.1

/-- Upper case keeps where a word may start after a piece. -/
theorem startsWord_asciiUpper {text : Text} (pieces : ∀ c ∈ text, isPieceChar c = true) :
    startsWord text.asciiUpper.getLast? = startsWord text.getLast? := by
  rw [asciiUpper, List.getLast?_map]
  cases last : text.getLast? with
  | none => rfl
  | some c => simp [startsWord, isWordChar_toUpper (pieces c (List.mem_of_getLast? last))]

/-- Upper case keeps whether a piece ends a word. -/
theorem endsWord_asciiUpper {text : Text} (pieces : ∀ c ∈ text, isPieceChar c = true) :
    endsWord text.asciiUpper = endsWord text := by
  cases text with
  | nil => rfl
  | cons c text => simp [endsWord, asciiUpper, isWordChar_toUpper (pieces c List.mem_cons_self)]

/-- A word may start after no character where it may start after a space. -/
theorem startsWord_getD (last : Option Char) :
    startsWord (some (last.getD ' ')) = startsWord last := by
  cases last <;> rfl

/-! ### Pieces with spaces between them -/

/-- Pieces with a space in front of each. -/
def spaced (pieces : List Text) : Text :=
  pieces.flatMap (' ' :: ·)

theorem spaced_cons (piece : Text) (pieces : List Text) :
    spaced (piece :: pieces) = ' ' :: piece ++ spaced pieces := rfl

/-- Pieces are written one list after the other. -/
theorem spaced_append (front back : List Text) :
    spaced (front ++ back) = spaced front ++ spaced back :=
  List.flatMap_append

theorem mem_spaced {c : Char} {pieces : List Text} (member : c ∈ spaced pieces) :
    c = ' ' ∨ ∃ piece ∈ pieces, c ∈ piece := by
  obtain ⟨piece, inside, here⟩ := List.mem_flatMap.mp member
  rcases List.mem_cons.mp here with space | within
  · exact Or.inl space
  · exact Or.inr ⟨piece, inside, within⟩

/-- Pieces and the spaces between them open and close nothing. -/
theorem plain_of_mem_spaced {pieces : List Text}
    (printable : ∀ piece ∈ pieces, ∀ c ∈ piece, isPieceChar c = true) {c : Char}
    (member : c ∈ spaced pieces) : c ∉ ['-', '/', '$', '\'', '"'] ∧ c ∉ ['(', ')'] := by
  rcases mem_spaced member with rfl | ⟨piece, inside, within⟩
  · decide
  · exact plain_of_isPieceChar (printable piece inside c within)

/-- A space or the end of the text. -/
def Separates (back : Text) : Prop :=
  ∀ c ∈ back.head?, c = ' '

theorem separates_nil : Separates [] := by
  simp [Separates]

/-- A space separates words. -/
theorem separates_space (back : Text) : Separates (' ' :: back) := by
  simp [Separates]

/-- Pieces separate words when what follows them does. -/
theorem separates_spaced (pieces : List Text) (back : Text) (separates : Separates back) :
    Separates (spaced pieces ++ back) := by
  cases pieces with
  | nil => exact separates
  | cons piece pieces => exact separates_space _

/-- A text that separates words does not change how the one before it ends. -/
theorem endsWord_append (rest : Text) {tail : Text} (separates : Separates tail) :
    endsWord (rest ++ tail) = endsWord rest := by
  cases rest with
  | cons c rest => rfl
  | nil =>
      cases tail with
      | nil => rfl
      | cons d tail =>
          obtain rfl := separates d rfl
          rfl

/-- The space after a text is trimmed when the text starts and ends with a visible character. -/
theorem trim_append {core : Text} (gap : Text) (starts : core.head?.any isBlank = false)
    (ends : core.getLast?.any isBlank = false) (blank : ∀ c ∈ gap, isBlank c = true) :
    trim (core ++ gap) = core := by
  have blankBack : ∀ c ∈ gap.reverse, isBlank c = true := fun c member =>
    blank c (List.mem_reverse.mp member)
  have visibleBack : core.reverse.dropWhile isBlank = core.reverse := by
    cases reversed : core.reverse with
    | nil => rfl
    | cons c others =>
        rw [← List.head?_reverse, reversed] at ends
        exact List.dropWhile_cons_of_neg (by simpa using ends)
  have kept : dropTail isBlank (core ++ gap) = core := by
    rw [dropTail, List.reverse_append, List.dropWhile_append_of_pos blankBack, visibleBack,
      List.reverse_reverse]
  cases core with
  | nil =>
      have allBlank : gap.dropWhile isBlank = [] := by
        rw [← List.append_nil gap, List.dropWhile_append_of_pos blank]
        rfl
      rw [List.nil_append, trim, allBlank]
      rfl
  | cons c core =>
      rw [trim, List.cons_append, List.dropWhile_cons_of_neg (by simpa using starts)]
      exact kept

/-- A piece without white space is settled as it is. -/
theorem settle_false_append {piece : Text} (visible : ∀ c ∈ piece, isBlank c = false)
    (rest : Text) : settle false (piece ++ rest) = piece ++ settle false rest := by
  induction piece with
  | nil => rfl
  | cons c piece ih =>
      obtain ⟨here, later⟩ := List.forall_mem_cons.mp visible
      simp [settle, here, ih later]

/-- Collapsing white space drops the empty pieces and keeps the others. -/
theorem settle_spaced {pieces : List Text} (visible : ∀ piece ∈ pieces, ∀ c ∈ piece,
      isBlank c = false) (pending : Bool) :
    settle pending (spaced pieces) = spaced (pieces.filter (!·.isEmpty)) := by
  induction pieces generalizing pending with
  | nil => cases pending <;> rfl
  | cons piece pieces ih =>
      obtain ⟨here, later⟩ := List.forall_mem_cons.mp visible
      have space : isBlank ' ' = true := by decide
      rw [spaced_cons, List.cons_append, settle, if_pos space]
      cases piece with
      | nil => exact ih later true
      | cons c piece =>
          obtain ⟨first, others⟩ := List.forall_mem_cons.mp here
          rw [List.cons_append, settle, first, settle_false_append others, ih later]
          rfl

/-- Collapsing what is written leaves the pieces that are not empty, one space before each. -/
theorem collapse_spaced {piece : Text} {pieces : List Text} (nonempty : piece ≠ [])
    (visible : ∀ other ∈ piece :: pieces, ∀ c ∈ other, isBlank c = false) :
    ' ' :: collapse (spaced (piece :: pieces)) =
      spaced ((piece :: pieces).filter (!·.isEmpty)) := by
  obtain ⟨c, others, rfl⟩ := List.exists_cons_of_ne_nil nonempty
  obtain ⟨here, later⟩ := List.forall_mem_cons.mp visible
  have space : isBlank ' ' = true := by decide
  rw [collapse, spaced_cons, List.cons_append, List.dropWhile_cons_of_pos space, List.cons_append,
    List.dropWhile_cons_of_neg (by simp [here c List.mem_cons_self]), ← List.cons_append,
    settle_false_append here, settle_spaced later]
  rfl

section Misses

variable {β : Type} {test : Option Char → Text → Option β}
  {Candidate : Option Char → Text → Text → Prop}

/-- A test that accepts only where a candidate without a space stands. The candidate comes with the
character before it and the text after it. -/
structure ReadsWord (test : Option Char → Text → Option β)
    (Candidate : Option Char → Text → Text → Prop) : Prop where
  solid : ∀ previous word rest, Candidate previous word rest → word ≠ [] ∧ ' ' ∉ word
  reads : ∀ previous text found, test previous text = some found →
    ∃ word rest, text = word ++ rest ∧ Candidate previous word rest

/-- A test that reads words accepts nothing at a separation. -/
theorem ReadsWord.eq_none (readsWord : ReadsWord test Candidate) {text : Text}
    (separates : Separates text) (previous : Option Char) : test previous text = none := by
  cases found : test previous text with
  | none => rfl
  | some value =>
      obtain ⟨word, rest, rfl, candidate⟩ := readsWord.reads _ _ _ found
      obtain ⟨nonempty, noSpace⟩ := readsWord.solid _ word rest candidate
      obtain ⟨c, others, rfl⟩ := List.exists_cons_of_ne_nil nonempty
      exact absurd (separates c rfl ▸ List.mem_cons_self) noSpace

/-- A test that reads words accepts nothing at a space. -/
theorem ReadsWord.misses_space (readsWord : ReadsWord test Candidate) (previous : Option Char)
    (back : Text) : Misses test previous [' '] back :=
  misses_cons.mpr ⟨readsWord.eq_none (separates_space _) previous, misses_nil⟩

/-- Such a test accepts inside a piece only where the piece itself holds a candidate. -/
theorem ReadsWord.misses_piece (readsWord : ReadsWord test Candidate) {piece back : Text}
    (separates : Separates back)
    (refuses : ∀ front word rest, piece = front ++ word ++ rest →
      ¬ Candidate (some (front.getLast?.getD ' ')) word (rest ++ back)) :
    Misses test (some ' ') piece back := by
  rintro before c after rfl
  cases found : test (before.getLast?.or (some ' ')) (c :: (after ++ back)) with
  | none => rfl
  | some value =>
      exfalso
      obtain ⟨word, rest, shape, candidate⟩ := readsWord.reads _ _ _ found
      obtain ⟨nonempty, noSpace⟩ := readsWord.solid _ word rest candidate
      -- The word has no space, so it ends before the piece does.
      obtain ⟨more, whole, rfl⟩ : ∃ more, c :: after = word ++ more ∧ rest = more ++ back := by
        cases back with
        | nil => exact ⟨rest, by simpa using shape, by simp⟩
        | cons d back =>
            obtain rfl := separates d rfl
            exact exists_append_of_not_mem shape noSpace
      rw [Option.or_some] at candidate
      exact refuses before word more (by rw [whole, List.append_assoc]) candidate

/-- **Words lie in pieces.** A test that reads words accepts nowhere in spaced pieces when no piece
holds a candidate. -/
theorem ReadsWord.misses_spaced (readsWord : ReadsWord test Candidate) {pieces : List Text}
    {back : Text} (separates : Separates back)
    (refuses : ∀ piece ∈ pieces, ∀ front word rest tail, Separates tail →
      piece = front ++ word ++ rest →
      ¬ Candidate (some (front.getLast?.getD ' ')) word (rest ++ tail))
    (previous : Option Char) : Misses test previous (spaced pieces) back := by
  induction pieces generalizing previous with
  | nil => exact misses_nil
  | cons piece pieces ih =>
      obtain ⟨here, later⟩ := List.forall_mem_cons.mp refuses
      have tail := separates_spaced pieces back separates
      rw [spaced_cons]
      refine misses_append.mpr ⟨misses_cons.mpr ⟨?_, ?_⟩, ih later _⟩
      · exact readsWord.eq_none (separates_space _) previous
      · exact readsWord.misses_piece tail fun front word rest => here front word rest _ tail

end Misses

/-- No piece ends in `a` with the next one starting with `b`. -/
def Unjoined (a b : Text) : List Text → Prop
  | first :: second :: rest => ¬ (a <:+ first ∧ b <+: second) ∧ Unjoined a b (second :: rest)
  | _ => True

instance decidableUnjoined (a b : Text) : (pieces : List Text) → Decidable (Unjoined a b pieces)
  | [] => isTrue trivial
  | [_] => isTrue trivial
  | _ :: second :: rest =>
      have := decidableUnjoined a b (second :: rest)
      inferInstanceAs (Decidable (_ ∧ _))

theorem Unjoined.append {a b : Text} {front back : List Text} (first : Unjoined a b front)
    (second : Unjoined a b back)
    (between : ∀ last ∈ front.getLast?, ∀ next ∈ back.head?, ¬ (a <:+ last ∧ b <+: next)) :
    Unjoined a b (front ++ back) := by
  induction front with
  | nil => exact second
  | cons piece front ih =>
      cases front with
      | nil =>
          cases back with
          | nil => trivial
          | cons next back => exact ⟨between piece rfl next rfl, second⟩
      | cons next front =>
          exact ⟨first.1, ih first.2 fun last member => between last (by simpa using member)⟩

/-- Pieces that come in groups are joined in a group or between two of them. -/
theorem unjoined_flatMap {α : Type} {a b : Text} {pieces : α → List Text} {parts : List α}
    (nonempty : ∀ part ∈ parts, pieces part ≠ [])
    (inside : ∀ part ∈ parts, Unjoined a b (pieces part))
    (between : ∀ first ∈ parts, ∀ second ∈ parts, ∀ last ∈ (pieces first).getLast?,
      ∀ next ∈ (pieces second).head?, ¬ (a <:+ last ∧ b <+: next)) :
    Unjoined a b (parts.flatMap pieces) := by
  induction parts with
  | nil => trivial
  | cons part parts ih =>
      obtain ⟨_, others⟩ := List.forall_mem_cons.mp nonempty
      obtain ⟨here, later⟩ := List.forall_mem_cons.mp inside
      have rest := ih others later fun first member second memberToo =>
        between first (List.mem_cons_of_mem _ member) second (List.mem_cons_of_mem _ memberToo)
      refine here.append rest fun last isLast next isNext => ?_
      cases parts with
      | nil => cases isNext
      | cons second parts =>
          refine between part List.mem_cons_self second (by simp) last isLast next ?_
          change next ∈ (pieces second ++ parts.flatMap pieces).head? at isNext
          obtain ⟨head, tail, shape⟩ := List.exists_cons_of_ne_nil (others second (by simp))
          rw [shape] at isNext ⊢
          exact isNext

/-- **Phrases join pieces.** Two words with a space between them stand at the end of a piece and at
the start of the next one. -/
theorem not_infix_spaced {a b : Text} (nonempty : a ≠ []) (solidFirst : ' ' ∉ a)
    (solidSecond : ' ' ∉ b) {pieces : List Text} (solid : ∀ piece ∈ pieces, ' ' ∉ piece)
    (unjoined : Unjoined a b pieces) : ¬ a ++ ' ' :: b <:+: spaced pieces := by
  induction pieces with
  | nil =>
      rintro ⟨front, back, whole⟩
      simp [spaced] at whole
  | cons piece pieces ih =>
      obtain ⟨here, later⟩ := List.forall_mem_cons.mp solid
      rintro ⟨front, back, whole⟩
      have shape : front ++ a ++ ' ' :: (b ++ back) = (' ' :: piece) ++ spaced pieces := by
        simpa [spaced_cons] using whole
      -- The space stands after the piece, so the first word ends with the piece or later.
      obtain ⟨more, ends, rest⟩ : ∃ more, front ++ a = (' ' :: piece) ++ more ∧
          spaced pieces = more ++ ' ' :: (b ++ back) := by
        cases both : front ++ a with
        | nil => exact absurd (List.append_eq_nil_iff.mp both).2 nonempty
        | cons c others =>
            rw [both] at shape
            obtain ⟨rfl, tail⟩ := List.cons.inj shape
            obtain ⟨more, same, rest⟩ := exists_append_of_not_mem tail here
            exact ⟨more, congrArg (' ' :: ·) same, rest⟩
      obtain ⟨second, others, rfl⟩ : ∃ second others, pieces = second :: others :=
        List.exists_cons_of_ne_nil fun none => by simp [none, spaced] at rest
      rcases List.append_eq_append_iff.mp ends with ⟨inner, same, split⟩ | ⟨inner, rfl, split⟩
      · -- Part of the word stands in the piece, so the rest of it is empty.
        have last : more = [] := by
          cases more with
          | nil => rfl
          | cons c more =>
              obtain ⟨rfl, _⟩ := List.cons.inj rest
              exact absurd (by simp [split]) solidFirst
        rw [last, List.append_nil] at split
        rw [← split] at same
        rw [last] at rest
        refine unjoined.1 ⟨?_, ?_⟩
        · have within : a <:+ ' ' :: piece := ⟨front, same.symm⟩
          refine (List.suffix_cons_iff.mp within).resolve_left fun whole => ?_
          exact solidFirst (whole ▸ List.mem_cons_self)
        · have tail : second ++ spaced others = b ++ back := (List.cons.inj rest).2
          cases others with
          | nil => exact ⟨back, by simpa [spaced] using tail.symm⟩
          | cons third others =>
              obtain ⟨after, same, _⟩ := exists_append_of_not_mem tail solidSecond
              exact ⟨after, same.symm⟩
      · exact ih later unjoined.2 ⟨inner, back, by rw [rest, split]; simp⟩

end Text

end RoutineScripts
