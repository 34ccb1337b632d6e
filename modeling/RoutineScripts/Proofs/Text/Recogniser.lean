import RoutineScripts.Text.Recogniser

/-!
# What recognisers accept and where they stop

What the basic recognisers accept is said without running them (`Recogniser.spell_eq_some_iff` and
the lemmas after it).

A recogniser *stops at* a character when, in front of that character, what it accepts does not
depend on the text after it. Recognisers of words and white space stop at every character that is
neither, and sequences of such recognisers do so too.
-/

namespace RoutineScripts

/-- The characters that break a line are the line feed and the return. -/
theorem eq_of_isBreak {c : Char} (breaks : isBreak c = true) : c = '\n' ∨ c = '\r' := by
  simpa [isBreak] using breaks

namespace Text

variable {α : Type} {test : α → Bool} {z : α}

theorem takeWhile_append_cons (stops : test z = false) (front back : List α) :
    (front ++ z :: back).takeWhile test = front.takeWhile test := by
  induction front with
  | nil => simp [stops]
  | cons c front ih => rw [List.cons_append, List.takeWhile_cons, List.takeWhile_cons, ih]

theorem dropWhile_append_cons (stops : test z = false) (front back : List α) :
    (front ++ z :: back).dropWhile test = front.dropWhile test ++ z :: back := by
  induction front with
  | nil => simp [stops]
  | cons c front ih =>
      rw [List.cons_append, List.dropWhile_cons, List.dropWhile_cons, ih]
      split <;> rfl

end Text

namespace Recogniser

/-- One recogniser after the other accepts what the two accept in turn. -/
theorem andThen_eq_some_iff {first second : Recogniser} {text accepted rest : Text} :
    first.andThen second text = some (accepted, rest) ↔
      ∃ left middle right, first text = some (left, middle) ∧ second middle = some (right, rest) ∧
        accepted = left ++ right := by
  rw [andThen]
  cases first text with
  | none => simp
  | some parts =>
      obtain ⟨left, middle⟩ := parts
      simp only [Option.map_eq_some_iff, Prod.exists, Prod.mk.injEq, Option.some.injEq]
      constructor
      · rintro ⟨right, after, found, rfl, rfl⟩
        exact ⟨left, middle, right, ⟨rfl, rfl⟩, found, rfl⟩
      · rintro ⟨_, _, right, ⟨rfl, rfl⟩, found, rfl⟩
        exact ⟨right, rest, found, rfl, rfl⟩

/-- An optional part is accepted, or it is missing and nothing is accepted. -/
theorem optional_eq_some_iff {part : Recogniser} {text accepted rest : Text} :
    optional part text = some (accepted, rest) ↔
      part text = some (accepted, rest) ∨ part text = none ∧ accepted = [] ∧ rest = text := by
  rw [optional]
  cases part text with
  | none => simp [eq_comm]
  | some parts => simp

/-- A character is accepted when the text starts with it. -/
theorem char_eq_some_iff {expected : Char} {text accepted rest : Text} :
    char expected text = some (accepted, rest) ↔
      accepted = [expected] ∧ text = expected :: rest := by
  cases text with
  | nil => simp [char]
  | cons c tail =>
      by_cases same : c = expected
      · simp [char, same, eq_comm]
      · simp [char, same]

/-- A run is the longest front of the class. -/
theorem run_eq_some_iff {test : Char → Bool} {text accepted rest : Text} :
    run test text = some (accepted, rest) ↔
      text = accepted ++ rest ∧ (∀ c ∈ accepted, test c = true) ∧ rest.head?.any test = false := by
  rw [run, Option.some.injEq, Prod.mk.injEq]
  constructor
  · rintro ⟨rfl, rfl⟩
    refine ⟨List.takeWhile_append_dropWhile.symm, List.all_eq_true.mp List.all_takeWhile, ?_⟩
    cases tail : text.dropWhile test with
    | nil => rfl
    | cons c tail =>
        have stops := List.head?_dropWhile_not test text
        simpa [tail] using stops
  · rintro ⟨rfl, passes, stops⟩
    rw [List.takeWhile_append_of_pos passes, List.dropWhile_append_of_pos passes]
    cases rest with
    | nil => simp
    | cons c rest =>
        have fails : ¬ test c = true := by simpa using stops
        rw [List.takeWhile_cons_of_neg fails, List.dropWhile_cons_of_neg fails, List.append_nil]
        exact ⟨rfl, rfl⟩

/-- A run of at least one character is the longest front of the class, and not empty. -/
theorem run1_eq_some_iff {test : Char → Bool} {text accepted rest : Text} :
    run1 test text = some (accepted, rest) ↔
      accepted ≠ [] ∧ text = accepted ++ rest ∧ (∀ c ∈ accepted, test c = true) ∧
        rest.head?.any test = false := by
  rw [← run_eq_some_iff, run1, run]
  by_cases empty : (text.takeWhile test).isEmpty = true
  · rw [if_pos empty, Option.some.injEq, Prod.mk.injEq]
    simp only [reduceCtorEq, false_iff, not_and]
    intro nonempty same
    exact absurd (same ▸ List.isEmpty_iff.mp empty) nonempty
  · rw [if_neg empty, Option.some.injEq, Prod.mk.injEq]
    constructor
    · rintro ⟨rfl, rfl⟩
      exact ⟨fun nil => empty (by rw [nil]; rfl), rfl, rfl⟩
    · exact And.right

/-- White space has no upper case of its own. -/
theorem toUpper_of_isBlank {c : Char} (blank : isBlank c = true) : c.toUpper = c := by
  have outside : ¬ ('a'.val ≤ c.val ∧ c.val ≤ 'z'.val) := by
    rintro ⟨lower, upper⟩
    have below : 97 ≤ c.toNat := lower
    have above : c.toNat ≤ 122 := upper
    simp only [isBlank, Bool.or_eq_true, Bool.and_eq_true, decide_eq_true_eq, beq_iff_eq] at blank
    omega
  exact dif_neg outside

/-- White space is a form of nothing but white space. -/
theorem isFormOf_of_isBlank {letter c : Char} (blank : isBlank c = true)
    (visible : isBlank letter = false) : isFormOf letter c = false := by
  have long : c ≠ 'ſ' := by
    rintro rfl
    exact absurd blank (by decide)
  have kelvin : c ≠ '\u212A' := by
    rintro rfl
    exact absurd blank (by decide)
  have differs : c ≠ letter := by
    rintro rfl
    rw [visible] at blank
    cases blank
  simp [isFormOf, toUpper_of_isBlank blank, long, kelvin, differs]

/-- A choice accepts what its first branch accepts, and otherwise what the second one does. -/
theorem orElse_eq_some_iff {first second : Recogniser} {text : Text} {parts : Text × Text} :
    first.orElse second text = some parts ↔
      first text = some parts ∨ first text = none ∧ second text = some parts := by
  rw [orElse, Option.or_eq_some_iff]

/-- White space of at least one character in front of a visible one is read in full. -/
theorem blanks_eq_some_iff {text gap rest : Text} :
    blanks text = some (gap, rest) ↔
      gap ≠ [] ∧ text = gap ++ rest ∧ (∀ c ∈ gap, isBlank c = true) ∧
        rest.head?.any isBlank = false :=
  run1_eq_some_iff

/-- `word` is made of forms of the given letters. -/
def Spells : List Char → Text → Prop
  | [], [] => True
  | letter :: letters, c :: word => isFormOf letter c = true ∧ Spells letters word
  | _, _ => False

/-- A spelling has one character for each letter. -/
theorem Spells.length_eq {letters : List Char} {word : Text} (spells : Spells letters word) :
    word.length = letters.length := by
  induction letters generalizing word with
  | nil => cases word <;> first | rfl | cases spells
  | cons letter letters ih =>
      cases word with
      | nil => cases spells
      | cons c word => rw [List.length_cons, List.length_cons, ih spells.2]

/-- A spelling is accepted when the text starts with a form of its letters. -/
theorem spell_eq_some_iff {letters : List Char} {text word rest : Text} :
    spell letters text = some (word, rest) ↔ Spells letters word ∧ text = word ++ rest := by
  induction letters generalizing text word rest with
  | nil => cases word <;> simp [spell, Spells, eq_comm]
  | cons letter letters ih =>
      cases text with
      | nil => cases word <;> simp [spell, Spells]
      | cons c text =>
          by_cases form : isFormOf letter c = true
          · simp only [spell, form, if_true, Option.map_eq_some_iff, Prod.exists, Prod.mk.injEq, ih]
            constructor
            · rintro ⟨letters, after, ⟨spells, rfl⟩, rfl, rfl⟩
              exact ⟨⟨form, spells⟩, rfl⟩
            · rintro ⟨spells, split⟩
              cases word with
              | nil => cases spells
              | cons d word =>
                  obtain ⟨rfl, rfl⟩ := List.cons.inj split
                  exact ⟨word, rest, ⟨spells.2, rfl⟩, rfl, rfl⟩
          · simp only [spell, form, Bool.false_eq_true, if_false, reduceCtorEq, false_iff, not_and]
            intro spells split
            cases word with
            | nil => cases spells
            | cons d word =>
                obtain ⟨rfl, rfl⟩ := List.cons.inj split
                exact form spells.1

/-- A keyword is accepted when the text starts with a form of its letters. -/
theorem keyword_eq_some_iff {word : String} {text accepted rest : Text} :
    keyword word text = some (accepted, rest) ↔
      Spells word.toList accepted ∧ text = accepted ++ rest :=
  spell_eq_some_iff

/-- A keyword is read where it is written in upper case. -/
theorem keyword_append (word : String) (upper : keyword word word.toList = some (word.toList, []))
    (rest : Text) : keyword word (word.toList ++ rest) = some (word.toList, rest) :=
  keyword_eq_some_iff.mpr ⟨(keyword_eq_some_iff.mp upper).1, rfl⟩

/-- A space is white space. -/
theorem isBlank_of_mem_space : ∀ c ∈ [' '], isBlank c = true :=
  List.forall_mem_singleton.mpr (by decide)

/-- A single space is accepted as white space. -/
theorem blanks_space {rest : Text} (visible : rest.head?.any isBlank = false) :
    blanks (' ' :: rest) = some ([' '], rest) :=
  blanks_eq_some_iff.mpr ⟨List.cons_ne_nil _ _, rfl, isBlank_of_mem_space, visible⟩

/-- Whether a character is a form of none of the letters. -/
def avoids (z : Char) (letters : List Char) : Bool :=
  letters.all fun letter => !isFormOf letter z

theorem avoids_cons {z letter : Char} {letters : List Char} :
    avoids z (letter :: letters) = true ↔ isFormOf letter z = false ∧ avoids z letters = true := by
  simp [avoids]

/-- A character that letters avoid stands in no spelling of them. -/
theorem not_mem_of_spells {z : Char} {letters : List Char} {word : Text}
    (avoided : avoids z letters = true) (spells : Spells letters word) : z ∉ word := by
  induction letters generalizing word with
  | nil =>
      cases word with
      | nil => exact List.not_mem_nil
      | cons c word => cases spells
  | cons letter letters ih =>
      cases word with
      | nil => exact List.not_mem_nil
      | cons c word =>
          obtain ⟨differs, others⟩ := avoids_cons.mp avoided
          rw [List.mem_cons, not_or]
          refine ⟨?_, ih others spells.2⟩
          rintro rfl
          have form := spells.1
          rw [differs] at form
          cases form

/-- Every character that a row of classes accepts is of one of them. -/
theorem exists_test_of_each {tests : List (Char → Bool)} {text accepted rest : Text}
    (found : each tests text = some (accepted, rest)) :
    ∀ c ∈ accepted, ∃ test ∈ tests, test c = true := by
  induction tests generalizing text accepted with
  | nil =>
      cases found
      intro c member
      cases member
  | cons test tests ih =>
      cases text with
      | nil => cases found
      | cons d text =>
          simp only [each] at found
          split at found
          case isFalse => cases found
          case isTrue passes =>
            simp only [Option.map_eq_some_iff, Prod.exists, Prod.mk.injEq] at found
            obtain ⟨others, after, read, rfl, rfl⟩ := found
            intro c member
            rcases List.mem_cons.mp member with rfl | later
            · exact ⟨test, List.mem_cons_self, passes⟩
            · obtain ⟨other, inside, passesToo⟩ := ih read c later
              exact ⟨other, List.mem_cons_of_mem _ inside, passesToo⟩

/-- A row of classes accepts one character for each of them. -/
theorem length_of_each {tests : List (Char → Bool)} {text accepted rest : Text}
    (found : each tests text = some (accepted, rest)) : accepted.length = tests.length := by
  induction tests generalizing text accepted with
  | nil =>
      cases found
      rfl
  | cons test tests ih =>
      cases text with
      | nil => cases found
      | cons d text =>
          simp only [each] at found
          split at found
          case isFalse => cases found
          case isTrue =>
            simp only [Option.map_eq_some_iff, Prod.exists, Prod.mk.injEq] at found
            obtain ⟨others, after, read, rfl, rfl⟩ := found
            rw [List.length_cons, ih read, List.length_cons]

/-- In front of the character `z` the recogniser accepts what it accepts at the end of a text,
whatever follows `z`. -/
def StopsAt (recogniser : Recogniser) (z : Char) : Prop :=
  ∀ front back : Text, recogniser (front ++ z :: back) =
    (recogniser front).map fun (accepted, rest) => (accepted, rest ++ z :: back)

variable {z : Char}

theorem stopsAt_nothing : nothing.StopsAt z := fun _ _ => rfl

theorem stopsAt_andThen {first second : Recogniser} (left : first.StopsAt z)
    (right : second.StopsAt z) : (first.andThen second).StopsAt z := by
  intro front back
  rw [andThen, andThen, left]
  cases first front with
  | none => rfl
  | some parts =>
      simp only [Option.map_some, right parts.2 back]
      cases second parts.2 <;> rfl

theorem stopsAt_sequence {parts : List Recogniser} (all : ∀ part ∈ parts, part.StopsAt z) :
    (sequence parts).StopsAt z := by
  induction parts with
  | nil => exact stopsAt_nothing
  | cons part others ih =>
      have rest := ih fun other member => all other (List.mem_cons_of_mem _ member)
      exact stopsAt_andThen (all part List.mem_cons_self) rest

theorem stopsAt_optional {part : Recogniser} (stops : part.StopsAt z) :
    (optional part).StopsAt z := by
  intro front back
  rw [optional, optional, stops]
  cases part front <;> rfl

theorem stopsAt_char {expected : Char} (differs : expected ≠ z) : (char expected).StopsAt z := by
  intro front back
  cases front with
  | nil => simp [char, differs.symm]
  | cons c front => by_cases same : c = expected <;> simp [char, same]

theorem stopsAt_orElse {first second : Recogniser} (left : first.StopsAt z)
    (right : second.StopsAt z) : (first.orElse second).StopsAt z := by
  intro front back
  rw [orElse, orElse, left, right, Option.map_or]

theorem stopsAt_run1 {test : Char → Bool} (fails : test z = false) : (run1 test).StopsAt z := by
  intro front back
  rw [run1, run1, Text.takeWhile_append_cons fails, Text.dropWhile_append_cons fails]
  split <;> rfl

theorem stopsAt_blanks (visible : isBlank z = false) : blanks.StopsAt z :=
  stopsAt_run1 visible

theorem stopsAt_spell {letters : List Char} (avoided : avoids z letters = true) :
    (spell letters).StopsAt z := by
  induction letters with
  | nil => exact stopsAt_nothing
  | cons letter letters ih =>
      obtain ⟨differs, others⟩ := avoids_cons.mp avoided
      have later := ih others
      intro front back
      cases front with
      | nil => simp [spell, differs]
      | cons c front =>
          rw [List.cons_append, spell, spell, later]
          split
          · rw [Option.map_map, Option.map_map]
            rfl
          · rfl

theorem stopsAt_keyword {word : String} (avoided : avoids z word.toList = true) :
    (keyword word).StopsAt z :=
  stopsAt_spell avoided

/-- The recogniser accepts no text that holds the character `z`. -/
def Omits (recogniser : Recogniser) (z : Char) : Prop :=
  ∀ text accepted rest, recogniser text = some (accepted, rest) → z ∉ accepted

theorem omits_nothing (z : Char) : nothing.Omits z := by
  intro text accepted rest found
  cases found
  exact List.not_mem_nil

theorem omits_andThen {first second : Recogniser} {z : Char} (left : first.Omits z)
    (right : second.Omits z) : (first.andThen second).Omits z := by
  intro text accepted rest found
  obtain ⟨one, middle, two, foundFirst, foundSecond, rfl⟩ := andThen_eq_some_iff.mp found
  rw [List.mem_append, not_or]
  exact ⟨left _ _ _ foundFirst, right _ _ _ foundSecond⟩

theorem omits_sequence {parts : List Recogniser} {z : Char}
    (all : ∀ part ∈ parts, part.Omits z) : (sequence parts).Omits z := by
  induction parts with
  | nil => exact omits_nothing z
  | cons part others ih =>
      obtain ⟨here, later⟩ := List.forall_mem_cons.mp all
      exact omits_andThen here (ih later)

theorem omits_optional {part : Recogniser} {z : Char} (omits : part.Omits z) :
    (optional part).Omits z := by
  intro text accepted rest found
  rcases optional_eq_some_iff.mp found with read | ⟨_, rfl, _⟩
  · exact omits _ _ _ read
  · exact List.not_mem_nil

theorem omits_blanks {z : Char} (visible : isBlank z = false) : blanks.Omits z := by
  intro text accepted rest found member
  obtain ⟨_, _, blank, _⟩ := blanks_eq_some_iff.mp found
  rw [blank z member] at visible
  cases visible

theorem omits_keyword {word : String} {z : Char} (avoided : avoids z word.toList = true) :
    (keyword word).Omits z := by
  intro text accepted rest found
  exact not_mem_of_spells avoided (keyword_eq_some_iff.mp found).1

theorem omits_char {expected z : Char} (differs : z ≠ expected) : (char expected).Omits z := by
  intro text accepted rest found
  obtain ⟨rfl, _⟩ := char_eq_some_iff.mp found
  exact List.not_mem_cons_of_ne_of_not_mem differs List.not_mem_nil

theorem omits_each {tests : List (Char → Bool)} {z : Char}
    (fails : ∀ test ∈ tests, test z = false) : (each tests).Omits z := by
  intro text accepted rest found member
  obtain ⟨test, inside, passes⟩ := exists_test_of_each found z member
  rw [fails test inside] at passes
  cases passes

end Recogniser

end RoutineScripts
