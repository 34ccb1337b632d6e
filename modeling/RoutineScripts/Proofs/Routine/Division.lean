import RoutineScripts.Proofs.Routine.Spacing

/-!
# Options on either side of a character

A text is divided at a character that stands in no clause and is no white space, such as a semicolon
or a quote. A clause starts on one side of it or on the other, and what the clause reads in front of
the character is at most the value that reaches past it (`Options.clause?_append_cons`). A flag is
found on one side or on the other (`Options.IsFlag.flagText_append_cons`), since the words and the
phrases that are looked for hold no such character.
-/

namespace RoutineScripts

namespace Text

theorem exists_settle_append_cons {z : Char} (visible : isBlank z = false) (pending : Bool)
    (front back : Text) :
    ∃ lead, (lead = [] ∨ lead = [' ']) ∧
      settle pending (front ++ z :: back) =
        settle pending front ++ lead ++ z :: settle false back := by
  induction front generalizing pending with
  | nil =>
      cases pending with
      | false => exact ⟨[], Or.inl rfl, by simp [settle, visible]⟩
      | true => exact ⟨[' '], Or.inr rfl, by simp [settle, visible]⟩
  | cons c front ih =>
      cases blank : isBlank c with
      | true =>
          obtain ⟨lead, shape, whole⟩ := ih true
          exact ⟨lead, shape, by simpa [settle, blank] using whole⟩
      | false =>
          obtain ⟨lead, shape, whole⟩ := ih false
          refine ⟨lead, shape, ?_⟩
          cases pending <;> simpa [settle, blank] using whole

/-- Settling a text leaves a space in front at most. -/
theorem exists_settle_eq (text : Text) :
    ∃ gap, (gap = [] ∨ gap = [' ']) ∧ settle false text = gap ++ text.collapse := by
  have blank : ∀ c ∈ text.takeWhile isBlank, isBlank c = true :=
    List.all_eq_true.mp List.all_takeWhile
  have split : text.takeWhile isBlank ++ text.dropWhile isBlank = text :=
    List.takeWhile_append_dropWhile
  by_cases none : text.takeWhile isBlank = []
  · rw [none, List.nil_append] at split
    exact ⟨[], Or.inl rfl, by rw [collapse, split, List.nil_append]⟩
  · have settled := settle_gap blank false (text.dropWhile isBlank) none
    rw [split] at settled
    rw [collapse, settled]
    cases rest : text.dropWhile isBlank with
    | nil => exact ⟨[], Or.inl rfl, rfl⟩
    | cons c rest =>
        have visible : isBlank c = false := by
          have first := List.head?_dropWhile_not isBlank text
          simpa [rest] using first
        exact ⟨[' '], Or.inr rfl, by simp [settle, visible]⟩

/-- The two sides of a visible character are collapsed each on its own, up to a space next to it. -/
theorem exists_collapse_append_cons {z : Char} (visible : isBlank z = false) (front back : Text) :
    ∃ lead gap, (lead = [] ∨ lead = [' ']) ∧ (gap = [] ∨ gap = [' ']) ∧
      (front ++ z :: back).collapse = front.collapse ++ lead ++ z :: (gap ++ back.collapse) := by
  obtain ⟨lead, leadShape, whole⟩ :=
    exists_settle_append_cons visible false (front.dropWhile isBlank) back
  obtain ⟨gap, gapShape, rest⟩ := exists_settle_eq back
  refine ⟨lead, gap, leadShape, gapShape, ?_⟩
  rw [collapse, dropWhile_append_cons visible, whole, rest]
  rfl

end Text

namespace Options

open Text Recogniser

variable {z : Char}

theorem endsWord_append_cons (separates : isWordChar z = false) (front back : Text) :
    endsWord (front ++ z :: back) = endsWord front := by
  cases front <;> simp [endsWord, separates]

/-- A word may start after a separating character. -/
theorem startsWord_of_separates (separates : isWordChar z = false) :
    startsWord (some z) = startsWord none := by
  simp [startsWord, separates]

/-! ### Clauses -/

section Clause

variable {α : Type} {word : String} {value? : Text → Option α}

theorem clauseTest_append_cons (avoided : avoids z word.toList = true) (visible : isBlank z = false)
    (back : Text) (previous : Option Char) (front : Text) :
    clauseTest word value? previous (front ++ z :: back) =
      clauseTest word (fun rest => value? (rest ++ z :: back)) previous front := by
  have stops : (Recogniser.sequence [.keyword word, .blanks]).StopsAt z := by
    refine stopsAt_sequence ?_
    simp only [List.forall_mem_cons]
    exact ⟨stopsAt_keyword avoided, stopsAt_blanks visible,
      fun _ member => absurd member List.not_mem_nil⟩
  rw [clauseTest, clauseTest, stops]
  cases Recogniser.sequence [.keyword word, .blanks] front <;> rfl

/-- **Clauses divide.** A clause is found in front of a character that its keyword does not hold, or
else after it. -/
theorem clause?_append_cons (avoided : avoids z word.toList = true) (visible : isBlank z = false)
    (separates : isWordChar z = false) (front back : Text) :
    clause? word value? (front ++ z :: back) =
      (clause? word (fun rest => value? (rest ++ z :: back)) front).or
        (clause? word value? back) := by
  have starts : clauseTest word value? (some z) back = clauseTest word value? none back := by
    rw [clauseTest, clauseTest, startsWord_of_separates separates]
  rw [clause?_eq, clause?_eq, clause?_eq,
    search_append_cons (clauseTest_append_cons avoided visible back), search_congr_previous starts,
    Option.map_or, Option.map_map]
  rfl

end Clause

theorem stopsAt_number (digit : z.isDigit = false) (point : '.' ≠ z) : number.StopsAt z := by
  have digits : (run1 Char.isDigit).StopsAt z := stopsAt_run1 digit
  have fraction : (Recogniser.sequence [.char '.', .run1 Char.isDigit]).StopsAt z := by
    refine stopsAt_sequence ?_
    simp only [List.forall_mem_cons]
    exact ⟨stopsAt_char point, digits, fun _ member => absurd member List.not_mem_nil⟩
  refine stopsAt_sequence ?_
  simp only [List.forall_mem_cons]
  exact ⟨digits, stopsAt_optional fraction, fun _ member => absurd member List.not_mem_nil⟩

theorem numberIn_append_cons {word : String} (avoided : avoids z word.toList = true)
    (visible : isBlank z = false) (separates : isWordChar z = false) (digit : z.isDigit = false)
    (point : '.' ≠ z) (front back : Text) :
    numberIn word (front ++ z :: back) = (numberIn word front).or (numberIn word back) := by
  have read (segment : Text) :
      numberIn word segment = clause? word (fun rest => (number rest).map Prod.fst) segment := rfl
  have same (rest : Text) :
      (number (rest ++ z :: back)).map Prod.fst = (number rest).map Prod.fst := by
    rw [stopsAt_number digit point, Option.map_map]
    rfl
  simp only [read, clause?_append_cons avoided visible separates, same]

/-- The word of a mode is read up to a separating character. -/
theorem parallelWord?_append_cons
    (avoided : ∀ word ∈ ["SAFE", "RESTRICTED", "UNSAFE"], avoids z word.toList = true)
    (separates : isWordChar z = false) (front back : Text) :
    parallelWord? (front ++ z :: back) = parallelWord? front := by
  simp only [List.forall_mem_cons] at avoided
  obtain ⟨safe, restricted, serial, _⟩ := avoided
  have stops : (Recogniser.orElse (.keyword "SAFE")
      (.orElse (.keyword "RESTRICTED") (.keyword "UNSAFE"))).StopsAt z :=
    stopsAt_orElse (stopsAt_keyword safe)
      (stopsAt_orElse (stopsAt_keyword restricted) (stopsAt_keyword serial))
  rw [parallelWord?, parallelWord?, stops]
  cases Recogniser.orElse (.keyword "SAFE")
      (.orElse (.keyword "RESTRICTED") (.keyword "UNSAFE")) front with
  | none => rfl
  | some parts => simp only [Option.map_some, endsWord_append_cons separates]

/-! ### Flags -/

theorem wordTest_append_cons {word : String} (absent : z ∉ word.toList)
    (separates : isWordChar z = false) (back : Text) (previous : Option Char) (front : Text) :
    wordTest word previous (front ++ z :: back) = wordTest word previous front := by
  refine Option.ext fun found => ?_
  rw [wordTest_eq_some_iff, wordTest_eq_some_iff]
  refine and_congr_right fun _ => ?_
  constructor
  · rintro ⟨rest, whole, ends⟩
    obtain ⟨inner, rfl, rfl⟩ := exists_append_of_not_mem whole absent
    rw [endsWord_append_cons separates] at ends
    exact ⟨inner, rfl, ends⟩
  · rintro ⟨rest, rfl, ends⟩
    refine ⟨rest ++ z :: back, by simp, ?_⟩
    rw [endsWord_append_cons separates, ends]

/-- **Flags divide.** -/
theorem hasWord_append_cons {word : String} (absent : z ∉ word.toList)
    (separates : isWordChar z = false) (front back : Text) :
    hasWord word (front ++ z :: back) = (hasWord word front || hasWord word back) := by
  have found (text : Text) : hasWord word text = (search (wordTest word) none text).isSome := rfl
  have starts : wordTest word (some z) back = wordTest word none back := by
    rw [wordTest, wordTest, startsWord_of_separates separates]
  rw [found, found, found, search_append_cons (wordTest_append_cons absent separates back),
    search_congr_previous starts, Option.isSome_or, Option.isSome_map]

theorem hasWord_nil {word : String} (nonempty : word.toList ≠ []) : hasWord word [] = false := by
  refine hasWord_eq_false_iff.mpr fun front back split _ _ => ?_
  simp [nonempty] at split

theorem hasPhrase_append_cons {phrase : String} (absent : z ∉ phrase.toList) (front back : Text) :
    hasPhrase phrase (front ++ z :: back) = (hasPhrase phrase front || hasPhrase phrase back) := by
  rw [Bool.eq_iff_iff, Bool.or_eq_true, hasPhrase, hasPhrase, hasPhrase, occursIn_iff, occursIn_iff,
    occursIn_iff]
  constructor
  · rintro ⟨before, after, whole⟩
    rw [List.append_assoc] at whole
    rcases List.append_eq_append_iff.mp whole with ⟨more, rfl, tail⟩ | ⟨rest, rfl, tail⟩
    · obtain ⟨inner, rfl, _⟩ := exists_append_of_not_mem tail.symm absent
      exact Or.inl ⟨before, inner, by simp⟩
    · cases rest with
      | nil =>
          have whole : [] ++ z :: back = phrase.toList ++ after := tail
          obtain ⟨inner, none, _⟩ := exists_append_of_not_mem whole absent
          have empty := (List.append_eq_nil_iff.mp none.symm).1
          exact Or.inl (empty ▸ List.nil_infix)
      | cons c rest =>
          obtain ⟨rfl, rfl⟩ := List.cons.inj tail
          exact Or.inr ⟨rest, after, by simp⟩
  · rintro (⟨before, after, rfl⟩ | ⟨before, after, rfl⟩)
    · exact ⟨before, after ++ z :: back, by simp⟩
    · exact ⟨front ++ z :: before, after, by simp⟩

/-- What is looked for among the flags: it is found on one side of `z` or on the other, and a space
at an end makes no difference. -/
structure IsFlag (z : Char) (finds : Text → Bool) : Prop where
  divides : ∀ front back, finds (front ++ z :: back) = (finds front || finds back)
  before : ∀ text, finds (' ' :: text) = finds text
  after : ∀ text, finds (text ++ [' ']) = finds text

namespace IsFlag

/-- A word is a flag. -/
theorem hasWord {word : String} (absent : z ∉ word.toList) (separates : isWordChar z = false)
    (solid : ' ' ∉ word.toList) (nonempty : word.toList ≠ []) :
    IsFlag z (Options.hasWord word) := by
  have boundary : isWordChar ' ' = false := by decide
  refine ⟨hasWord_append_cons absent separates, fun text => ?_, fun text => ?_⟩
  · have divided := hasWord_append_cons solid boundary [] text
    rwa [hasWord_nil nonempty, Bool.false_or] at divided
  · have divided := hasWord_append_cons solid boundary text []
    rwa [hasWord_nil nonempty, Bool.or_false] at divided

/-- A phrase is a flag. -/
theorem hasPhrase {phrase : String} (absent : z ∉ phrase.toList)
    (starts : phrase.toList.head? ≠ some ' ') (ends : phrase.toList.getLast? ≠ some ' ')
    (nonempty : phrase.toList ≠ []) : IsFlag z (Options.hasPhrase phrase) := by
  refine ⟨hasPhrase_append_cons absent, fun text => ?_, fun text => ?_⟩
  · rw [Bool.eq_iff_iff, Options.hasPhrase, Options.hasPhrase, occursIn_iff, occursIn_iff,
      List.infix_cons_iff, or_iff_right]
    rintro ⟨rest, whole⟩
    obtain ⟨c, others, shape⟩ := List.exists_cons_of_ne_nil nonempty
    rw [shape] at whole starts
    exact starts (congrArg some (List.cons.inj whole).1)
  · rw [Bool.eq_iff_iff, Options.hasPhrase, Options.hasPhrase, occursIn_iff, occursIn_iff,
      List.infix_concat_iff, or_iff_right]
    rintro ⟨rest, whole⟩
    have last := congrArg List.getLast? whole
    rw [List.getLast?_concat, List.getLast?_append, List.getLast?_eq_some_getLast nonempty,
      Option.some_or] at last
    exact ends ((List.getLast?_eq_some_getLast nonempty).trans last)

variable {finds : Text → Bool}

/-- A space at an end of a text hides no flag. -/
theorem gap (isFlag : IsFlag z finds) {gap : Text} (shape : gap = [] ∨ gap = [' ']) (text : Text) :
    finds (gap ++ text) = finds text ∧ finds (text ++ gap) = finds text := by
  rcases shape with rfl | rfl
  · simp
  · exact ⟨isFlag.before text, isFlag.after text⟩

/-- Flags are looked for in the upper case of the collapsed text. -/
theorem flagText (isFlag : IsFlag z finds) (segment : Text) :
    finds (flagText segment) = finds (segment.collapse.flatMap upperForm) := by
  rw [Options.flagText, isFlag.after, isFlag.before]

/-- **Flags divide.** A flag is found in front of a character that it does not hold, or else after
it. -/
theorem flagText_append_cons (isFlag : IsFlag z finds) (visible : isBlank z = false)
    (upper : upperForm z = [z]) (front back : Text) :
    finds (Options.flagText (front ++ z :: back)) =
      (finds (Options.flagText front) || finds (Options.flagText back)) := by
  obtain ⟨lead, gap, leadShape, gapShape, whole⟩ := exists_collapse_append_cons visible front back
  have form {text : Text} (shape : text = [] ∨ text = [' ']) : text.flatMap upperForm = text := by
    rcases shape with rfl | rfl
    · rfl
    · rfl
  rw [isFlag.flagText, isFlag.flagText, isFlag.flagText, whole, List.flatMap_append,
    List.flatMap_append, List.flatMap_cons, List.flatMap_append, form leadShape, form gapShape,
    upper, List.singleton_append, isFlag.divides, (isFlag.gap leadShape _).2,
    (isFlag.gap gapShape _).1]

end IsFlag

end Options

end RoutineScripts
