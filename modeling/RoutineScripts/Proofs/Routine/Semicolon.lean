import RoutineScripts.Proofs.Routine.Division

/-!
# Options before a semicolon

Every clause of the options of a statement is read up to its semicolon at the latest, and white
space after the semicolon declares nothing. So a segment has the options of its part up to a
semicolon when nothing but white space and comments follows (`Options.ofText_of_blank`).

Each recogniser that a clause is read with stops at a semicolon (`Recogniser.StopsAt`), except for a
quoted language name, which goes on to a quote that white space does not hold.
-/

namespace RoutineScripts

namespace Text

section Blank

variable {gap : Text} (blank : ∀ c ∈ gap, isBlank c = true) (front : Text) {z : Char}
  (visible : isBlank z = false)

include blank visible

/-- White space after a visible character is trimmed. -/
theorem trim_append_blank : (front ++ z :: gap).trim = (front ++ [z]).trim := by
  have reversed : ∀ c ∈ gap.reverse, isBlank c = true := fun c member =>
    blank c (List.mem_reverse.mp member)
  rw [trim, trim, dropWhile_append_cons visible, dropWhile_append_cons visible, List.append_cons,
    dropTail, dropTail, List.reverse_append, List.dropWhile_append_of_pos reversed]

/-- White space after a visible character is collapsed to nothing. -/
theorem collapse_append_blank : (front ++ z :: gap).collapse = (front ++ [z]).collapse := by
  rw [collapse, collapse, dropWhile_append_cons visible, dropWhile_append_cons visible,
    List.append_cons, settle_append_gap blank]

end Blank

end Text

namespace Options

open Text Recogniser

/-- No word that ends a type holds a semicolon. -/
theorem avoids_of_mem_terminators {word : String} (member : word ∈ terminators) :
    avoids ';' word.toList = true := by
  have checked : ∀ word ∈ terminators, avoids ';' word.toList = true := by decide
  exact checked word member

/-- The end of a type is recognised before a semicolon, whatever follows it. -/
theorem terminatorTest_stop (previous : Option Char) (front back : Text) :
    terminatorTest previous (front ++ ';' :: back) = terminatorTest previous (front ++ [';']) := by
  have separates : isWordChar ';' = false := by decide
  have same : terminatorAt previous (front ++ ';' :: back) =
      terminatorAt previous (front ++ [';']) := by
    rw [terminatorAt, terminatorAt]
    refine congrArg _ (Bool.eq_iff_iff.mpr ?_)
    rw [List.any_eq_true, List.any_eq_true]
    refine exists_congr fun word => and_congr_right fun member => ?_
    have stops : (keyword word).StopsAt ';' := stopsAt_keyword (avoids_of_mem_terminators member)
    rw [stops, stops]
    cases keyword word front with
    | none => rfl
    | some parts => simp only [Option.map_some, endsWord_append_cons separates]
  rw [terminatorTest, terminatorTest, same]

theorem terminatorTest_nil (previous : Option Char) : terminatorTest previous [] = none := by
  cases found : terminatorTest previous [] with
  | none => rfl
  | some value =>
      obtain ⟨spelled, rest, split, _, ⟨word, member, spells⟩, _⟩ :=
        terminatorTest_eq_some_iff.mp found
      obtain ⟨rfl, _⟩ := List.append_eq_nil_iff.mp split.symm
      exact absurd (List.eq_nil_of_length_eq_zero spells.length_eq.symm)
        (isKeyword_of_mem_terminators member).nonempty

theorem clauseTest_nil {α : Type} {word : String} {value? : Text → Option α}
    (previous : Option Char) : clauseTest word value? previous [] = none := by
  cases found : clauseTest word value? previous [] with
  | none => rfl
  | some value =>
      obtain ⟨_, spelled, gap, rest, split, _, some, _⟩ := clauseTest_eq_some_iff.mp found
      simp [some] at split

/-- A quoted name stops at the quote that closes it. -/
theorem languageName?_stop (name back other : Text) :
    languageName? ('"' :: (name ++ '"' :: back)) =
      languageName? ('"' :: (name ++ '"' :: other)) := by
  have stops : (run1 (· != '"')).StopsAt '"' := stopsAt_run1 (by decide)
  rw [languageName?_quoted, languageName?_quoted]
  rw [stops, stops]
  cases run1 (· != '"') name with
  | none => rfl
  | some parts =>
      obtain ⟨accepted, rest⟩ := parts
      cases rest with
      | nil => simp [char]
      | cons c rest => by_cases same : c = '"' <;> simp [char, same]

/-- A quoted name of a language needs a closing quote. -/
theorem languageName?_of_open {rest : Text} (absent : '"' ∉ rest) :
    languageName? ('"' :: rest) = none := by
  rw [languageName?_quoted]
  cases found : run1 (· != '"') rest with
  | none => rfl
  | some parts =>
      obtain ⟨name, after⟩ := parts
      obtain ⟨_, rfl, _, stops⟩ := run1_eq_some_iff.mp found
      cases after with
      | nil => rfl
      | cons c after =>
          have quote : c = '"' := by simpa using stops
          exact absurd (by simp [quote]) absent

/-- The type is the value of its clause. -/
theorem returnsIn_eq (segment : Text) :
    returnsIn segment =
      (clause? "RETURNS" (fun rest => some (untilTerminator rest).trim) segment).getD [] := by
  have mapped := clause?_map "RETURNS" some (fun rest => (untilTerminator rest).trim) segment
  simp only [Option.map_some] at mapped
  rw [returnsIn, mapped]
  cases clause? "RETURNS" some segment <;> rfl

section Blank

variable {back : Text} (blank : ∀ c ∈ back, isBlank c = true)

include blank

/-- Nothing is found in white space. -/
theorem search_eq_none_of_blank {β : Type} {test : Option Char → Text → Option β}
    (refuses : ∀ previous c rest, isBlank c = true → test previous (c :: rest) = none)
    (refusesEnd : ∀ previous, test previous [] = none) (previous : Option Char) :
    search test previous back = none := by
  rw [search_eq_none_iff_forall]
  rintro passed rest rfl
  cases rest with
  | nil => exact refusesEnd _
  | cons c rest => exact refuses _ c rest (blank c (by simp))

/-- No clause is found in white space. -/
theorem clause?_eq_none_of_blank {α : Type} {word : String} {value? : Text → Option α}
    (solid : IsSolid word) : clause? word value? back = none := by
  rw [clause?_eq, search_eq_none_of_blank blank (clauseTest_blank solid) clauseTest_nil]
  rfl

/-- **Clauses end before the semicolon.** -/
theorem clause?_of_blank {α : Type} {word : String} {value? : Text → Option α}
    (solid : IsSolid word) (avoided : avoids ';' word.toList = true)
    (same : ∀ rest, value? (rest ++ ';' :: back) = value? (rest ++ [';'])) (front : Text) :
    clause? word value? (front ++ ';' :: back) = clause? word value? (front ++ [';']) := by
  have none : ∀ c ∈ ([] : Text), isBlank c = true := fun c member => absurd member List.not_mem_nil
  rw [clause?_append_cons avoided (by decide) (by decide),
    clause?_append_cons avoided (by decide) (by decide), clause?_eq_none_of_blank blank solid,
    clause?_eq_none_of_blank none solid, funext same]

/-- White space after a semicolon adds nothing to a type. -/
theorem trim_untilTerminator_of_blank (front : Text) :
    (untilTerminator (front ++ ';' :: back)).trim = (untilTerminator (front ++ [';'])).trim := by
  have none := search_eq_none_of_blank blank terminatorTest_blank terminatorTest_nil (some ';')
  cases front with
  | nil =>
      rw [List.nil_append, List.nil_append, untilTerminator_eq, untilTerminator_eq, none, search,
        terminatorTest_nil]
      exact trim_append_blank blank [] (by decide)
  | cons c rest =>
      rw [List.cons_append, List.cons_append, untilTerminator_eq, untilTerminator_eq,
        search_stop (fun previous front => terminatorTest_stop previous front back) none
          (terminatorTest_nil _)]
      cases search terminatorTest (some c) (rest ++ [';']) with
      | none => exact trim_append_blank blank (c :: rest) (by decide)
      | some found => rfl

/-- White space after a semicolon does not change the type that is read. -/
theorem returnsIn_of_blank (front : Text) :
    returnsIn (front ++ ';' :: back) = returnsIn (front ++ [';']) := by
  rw [returnsIn_eq, returnsIn_eq, clause?_of_blank blank ⟨by decide, by decide⟩ (by decide)]
  exact fun rest => congrArg some (trim_untilTerminator_of_blank blank rest)

/-- A quoted name ends before white space or not at all. -/
theorem languageName?_of_blank (front : Text) :
    languageName? (front ++ ';' :: back) = languageName? (front ++ [';']) := by
  by_cases quoted : front.head? = some '"'
  · obtain ⟨rest, rfl⟩ := List.head?_eq_some_iff.mp quoted
    rw [List.cons_append, List.cons_append]
    by_cases closed : '"' ∈ rest
    · obtain ⟨name, after, rfl, _⟩ := List.eq_append_cons_of_mem closed
      rw [List.append_assoc, List.append_assoc, List.cons_append, List.cons_append,
        languageName?_stop name _ (after ++ [';'])]
    · have absent (tail : Text) (free : '"' ∉ tail) : '"' ∉ rest ++ ';' :: tail := by
        simp [closed, free]
      have free : '"' ∉ back := fun member => absurd (blank '"' member) (by decide)
      rw [languageName?_of_open (absent back free), languageName?_of_open (absent [] (by simp))]
  · have bare (tail : Text) : (front ++ ';' :: tail).head? ≠ some '"' := by
      cases front with
      | nil => simp
      | cons c rest => exact quoted
    have stops : (run1 isFoldedIdentifierChar).StopsAt ';' := stopsAt_run1 (by decide)
    rw [languageName?_of_bare (bare _), languageName?_of_bare (bare _)]
    rw [stops, stops, Option.map_map, Option.map_map]
    rfl

/-- White space after a semicolon does not change a number that is read. -/
theorem numberIn_of_blank {word : String} (solid : IsSolid word)
    (avoided : avoids ';' word.toList = true) (front : Text) :
    numberIn word (front ++ ';' :: back) = numberIn word (front ++ [';']) := by
  refine clause?_of_blank blank solid avoided (fun rest => ?_) front
  have stops : number.StopsAt ';' := stopsAt_number (by decide) (by decide)
  rw [stops, stops, Option.map_map, Option.map_map]
  rfl

/-- White space after a semicolon does not change the text of the flags. -/
theorem flagText_of_blank (front : Text) :
    flagText (front ++ ';' :: back) = flagText (front ++ [';']) := by
  rw [flagText, flagText, collapse_append_blank blank front (by decide)]

/-- **Options end before the semicolon.** -/
theorem ofText_of_blank {segment other front : Text}
    (masked : segment.maskComments = front ++ [';'])
    (maskedToo : other.maskComments = front ++ ';' :: back) : ofText other = ofText segment := by
  have language : languageIn (front ++ ';' :: back) = languageIn (front ++ [';']) :=
    congrArg Language.resolve
      (clause?_of_blank blank ⟨by decide, by decide⟩ (by decide) (languageName?_of_blank blank)
        front)
  have parallel : parallelIn (front ++ ';' :: back) = parallelIn (front ++ [';']) := by
    have stops := parallelWord?_append_cons (show ∀ word ∈ ["SAFE", "RESTRICTED", "UNSAFE"],
      avoids ';' word.toList = true by decide) (by decide)
    rw [parallelIn, parallelIn, clause?_of_blank blank ⟨by decide, by decide⟩ (by decide)]
    exact fun rest => (stops rest back).trans (stops rest []).symm
  have cost : numberIn "COST" (front ++ ';' :: back) = numberIn "COST" (front ++ [';']) :=
    numberIn_of_blank blank ⟨by decide, by decide⟩ (by decide) front
  have rows : numberIn "ROWS" (front ++ ';' :: back) = numberIn "ROWS" (front ++ [';']) :=
    numberIn_of_blank blank ⟨by decide, by decide⟩ (by decide) front
  simp only [ofText, masked, maskedToo, flagText_of_blank blank, returnsIn_of_blank blank, language,
    parallel, cost, rows]

end Blank

end Options

end RoutineScripts
