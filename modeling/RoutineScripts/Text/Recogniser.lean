import RoutineScripts.Text.Blank

/-!
# Recognisers

A recogniser looks at the front of a text and splits off the part it accepts. Clauses are read by
running recognisers one after the other, and found by trying them at every place of a text with
`search`.

Keywords are read without regard to letter case. Two letters have a third form outside ASCII that
counts as the same letter: `ſ` for S and the Kelvin sign for K.
-/

namespace RoutineScripts

/-- A reader of the front of a text: the part it accepts and the rest. -/
abbrev Recogniser := Text → Option (Text × Text)

/-- ASCII letters, digits and the underscore. -/
def isIdentifierChar (c : Char) : Bool :=
  c.isAlphanum || c == '_'

/-- The long s and the Kelvin sign, the forms of S and K outside ASCII. -/
def isFoldedLetter (c : Char) : Bool :=
  c == 'ſ' || c == '\u212A'

/-- An identifier character when letter case is disregarded. -/
def isFoldedIdentifierChar (c : Char) : Bool :=
  isIdentifierChar c || isFoldedLetter c

/-- Whether `c` is a form of the upper-case ASCII letter `letter`. -/
def isFormOf (letter c : Char) : Bool :=
  c.toUpper == letter || (letter == 'S' && c == 'ſ') || (letter == 'K' && c == '\u212A')

namespace Recogniser

/-- Runs `second` on what `first` leaves. -/
def andThen (first second : Recogniser) : Recogniser := fun text =>
  match first text with
  | none => none
  | some (left, rest) => (second rest).map fun (right, after) => (left ++ right, after)

/-- Accepts the empty text. -/
def nothing : Recogniser := fun text => some ([], text)

/-- Runs recognisers one after the other. -/
def sequence (parts : List Recogniser) : Recogniser :=
  parts.foldr andThen nothing

/-- Accepts what `part` accepts, or nothing where it accepts nothing. -/
def optional (part : Recogniser) : Recogniser := fun text =>
  some ((part text).getD ([], text))

/-- Accepts what `first` accepts, and otherwise what `second` accepts. -/
def orElse (first second : Recogniser) : Recogniser := fun text =>
  (first text).or (second text)

/-- Accepts one given character. -/
def char (expected : Char) : Recogniser
  | [] => none
  | c :: rest => if c = expected then some ([c], rest) else none

/-- Accepts the longest run of characters that pass a test, the empty run included. -/
def run (test : Char → Bool) : Recogniser := fun text =>
  some (text.takeWhile test, text.dropWhile test)

/-- Accepts the longest run of characters that pass a test, if there are any. -/
def run1 (test : Char → Bool) : Recogniser := fun text =>
  if (text.takeWhile test).isEmpty then none
  else some (text.takeWhile test, text.dropWhile test)

/-- Accepts white space, at least one character of it. -/
def blanks : Recogniser := run1 isBlank

/-- Accepts the letters of a word in any of their forms. -/
def spell : List Char → Recogniser
  | [], text => some ([], text)
  | _ :: _, [] => none
  | letter :: letters, c :: rest =>
      if isFormOf letter c then
        (spell letters rest).map fun (word, after) => (c :: word, after)
      else
        none

/-- Accepts a keyword, given in upper case, without regard to letter case. -/
def keyword (word : String) : Recogniser := spell word.toList

/-- Accepts one character for each test, in order. -/
def each : List (Char → Bool) → Recogniser
  | [], text => some ([], text)
  | _ :: _, [] => none
  | test :: tests, c :: rest =>
      if test c then
        (each tests rest).map fun (accepted, after) => (c :: accepted, after)
      else
        none

/-- What a recogniser accepts and what it leaves make up the text. -/
def Splits (recogniser : Recogniser) : Prop :=
  ∀ text accepted rest, recogniser text = some (accepted, rest) → text = accepted ++ rest

/-- Two recognisers that take from the front do so one after the other. -/
theorem splits_andThen {first second : Recogniser} (left : first.Splits) (right : second.Splits) :
    (first.andThen second).Splits := by
  intro text accepted rest found
  simp only [andThen] at found
  split at found
  case h_1 => cases found
  case h_2 part middle foundFirst =>
    simp only [Option.map_eq_some_iff, Prod.exists, Prod.mk.injEq] at found
    obtain ⟨other, tail, foundSecond, rfl, rfl⟩ := found
    rw [left _ _ _ foundFirst, right _ _ _ foundSecond, List.append_assoc]

/-- The recogniser of nothing takes nothing from the front. -/
theorem splits_nothing : nothing.Splits := by
  intro text accepted rest found
  simp only [nothing, Option.some.injEq, Prod.mk.injEq] at found
  obtain ⟨rfl, rfl⟩ := found
  rfl

/-- Recognisers that take from the front do so in sequence. -/
theorem splits_sequence {parts : List Recogniser} (all : ∀ part ∈ parts, part.Splits) :
    (sequence parts).Splits := by
  induction parts with
  | nil => exact splits_nothing
  | cons part others ih =>
      have rest := ih fun other member => all other (List.mem_cons_of_mem _ member)
      exact splits_andThen (all part List.mem_cons_self) rest

/-- An optional part is taken from the front, or nothing is. -/
theorem splits_optional {part : Recogniser} (splits : part.Splits) : (optional part).Splits := by
  intro text accepted rest found
  simp only [optional, Option.some.injEq] at found
  cases read : part text with
  | none =>
      simp only [read, Option.getD_none, Prod.mk.injEq] at found
      obtain ⟨rfl, rfl⟩ := found
      rfl
  | some pair =>
      simp only [read, Option.getD_some] at found
      exact splits _ _ _ (found ▸ read)

/-- A choice takes from the front what one of its branches takes. -/
theorem splits_orElse {first second : Recogniser} (left : first.Splits) (right : second.Splits) :
    (first.orElse second).Splits := by
  intro text accepted rest found
  simp only [orElse] at found
  cases read : first text with
  | none => exact right _ _ _ (by simpa [read] using found)
  | some pair => exact left _ _ _ (by simpa [read] using found)

/-- One character is taken from the front. -/
theorem splits_char (expected : Char) : (char expected).Splits := by
  intro text accepted rest found
  cases text with
  | nil => cases found
  | cons c tail =>
      simp only [char] at found
      split at found
      · cases found; rfl
      · cases found

/-- The longest run of characters of a class is taken from the front. -/
theorem splits_run (test : Char → Bool) : (run test).Splits := by
  intro text accepted rest found
  cases found
  exact (List.takeWhile_append_dropWhile).symm

/-- A run of at least one character is taken from the front. -/
theorem splits_run1 (test : Char → Bool) : (run1 test).Splits := by
  intro text accepted rest found
  simp only [run1] at found
  split at found
  · cases found
  · cases found
    exact (List.takeWhile_append_dropWhile).symm

/-- A spelling is taken from the front. -/
theorem splits_spell (letters : List Char) : (spell letters).Splits := by
  induction letters with
  | nil => exact splits_nothing
  | cons letter letters ih =>
      intro text accepted rest found
      cases text with
      | nil => cases found
      | cons c tail =>
          simp only [spell] at found
          split at found
          · simp only [Option.map_eq_some_iff, Prod.exists, Prod.mk.injEq] at found
            obtain ⟨word, after, spelled, rfl, rfl⟩ := found
            rw [ih _ _ _ spelled, List.cons_append]
          · cases found

/-- A keyword is taken from the front. -/
theorem splits_keyword (word : String) : (keyword word).Splits :=
  splits_spell word.toList

/-- White space is taken from the front. -/
theorem splits_blanks : blanks.Splits :=
  splits_run1 isBlank

/-- One character per class is taken from the front. -/
theorem splits_each (tests : List (Char → Bool)) : (each tests).Splits := by
  induction tests with
  | nil => exact splits_nothing
  | cons test tests ih =>
      intro text accepted rest found
      cases text with
      | nil => cases found
      | cons c tail =>
          simp only [each] at found
          split at found
          · simp only [Option.map_eq_some_iff, Prod.exists, Prod.mk.injEq] at found
            obtain ⟨front, after, passed, rfl, rfl⟩ := found
            rw [ih _ _ _ passed, List.cons_append]
          · cases found

end Recogniser

namespace Text

/-- What follows `lead` at the front of a text, when ASCII letters are compared without regard to
case. -/
def afterCaseless? : Text → Text → Option Text
  | [], text => some text
  | _ :: _, [] => none
  | a :: lead, c :: rest => if a.toLower = c.toLower then afterCaseless? lead rest else none

/-- Whether a text starts with `lead`, when ASCII letters are compared without regard to case. -/
def startsWithCaseless (text lead : Text) : Bool :=
  (afterCaseless? lead text).isSome

/-- Whether `word` stands at the front of `text` as a whole word, given the character before it.
ASCII letters are compared without regard to case, and only identifier characters extend a
word. -/
def keywordAt (previous : Option Char) (text word : Text) : Bool :=
  match afterCaseless? word text with
  | none => false
  | some after => !previous.any isIdentifierChar && !after.head?.any isIdentifierChar

end Text

end RoutineScripts
