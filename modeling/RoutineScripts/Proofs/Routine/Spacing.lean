import RoutineScripts.Proofs.Lexical.Writing
import RoutineScripts.Proofs.Routine.Options

/-!
# Options of a normalised text

Masking the comments of a normalised text gives the masked text in other spacing
(`Text.squeeze_maskComments_normalize`): a `\r\n` counts as two spaces in a block comment, and as
one once it is normalised. Every clause is found whatever the spacing is (`Options.clause?_squeeze`)
and its value is the same, up to white space for a type and for a quoted language. The main
statement is `Options.collapse_ofText_normalize`.
-/

namespace RoutineScripts

namespace Language

/-- A language with the white space in its declared name collapsed. -/
def collapse : Language → Language
  | userDefined name => userDefined (name.map Text.collapse)
  | language => language

/-- A name with white space is that of a language of its own. -/
theorem resolve_of_blank {name : Text} (blank : name.any isBlank = true) :
    resolve (some name) = userDefined (some name) := by
  obtain ⟨c, member, isBlankChar⟩ := List.any_eq_true.mp blank
  have differs (word : String) (solid : Recogniser.IsSolid word) :
      name.asciiLower ≠ word.toList := by
    intro same
    have inside : c ∈ word.toList := by
      rw [← same]
      exact List.mem_map.mpr ⟨c, member, Recogniser.toLower_of_isBlank isBlankChar⟩
    rw [solid.isBlank_eq_false inside] at isBlankChar
    cases isBlankChar
  have nonempty : ¬ name.isEmpty = true := by
    rw [List.isEmpty_iff]
    exact List.ne_nil_of_mem member
  rw [resolve, if_neg nonempty, if_neg (differs "sql" ⟨by decide, by decide⟩),
    if_neg (differs "c" ⟨by decide, by decide⟩), if_neg (differs "internal" ⟨by decide, by decide⟩),
    if_neg (differs "plpgsql" ⟨by decide, by decide⟩)]

/-- Squeezing the name of a language keeps how it is written, up to white space. -/
theorem collapse_resolve_squeeze (name : Option Text) :
    (resolve (name.map Text.squeeze)).collapse = (resolve name).collapse := by
  cases name with
  | none => rfl
  | some name =>
      cases blank : name.any isBlank with
      | false =>
          have visible : ∀ c ∈ name, isBlank c = false := by simpa using blank
          rw [Option.map_some, Text.squeeze_of_visible visible]
      | true =>
          rw [Option.map_some, resolve_of_blank blank, resolve_of_blank]
          · simp [collapse, Text.collapse_squeeze]
          · rw [Text.any_isBlank_squeeze, blank]

end Language

namespace Options

open Text Recogniser

section Clause

variable {α β : Type} {word : String} {value? : Text → Option α} {other? : Text → Option β}
  {convert : α → β}

/-- A clause is accepted the same after squeezing, when its value is. -/
theorem clauseTest_squeeze (solid : IsSolid word)
    (agrees : ∀ rest, other? (squeeze rest) = (value? rest).map convert)
    (first second : Option Char) (rest : Text) (alike : startsWord second = startsWord first) :
    clauseTest word other? second (squeeze rest) =
      (clauseTest word value? first rest).map convert := by
  rw [clauseTest, clauseTest, alike]
  split
  · simp only [Recogniser.sequence, List.foldr_cons, List.foldr_nil, andThen, keyword_squeeze solid]
    cases keyword word rest with
    | none => rfl
    | some parts =>
        simp only [Option.map_some, blanks_squeeze, nothing]
        cases blanks parts.2 with
        | none => rfl
        | some spaced => exact agrees spaced.2
  · rfl

/-- No clause starts at white space. -/
theorem clauseTest_blank (solid : IsSolid word) (previous : Option Char) (c : Char) (rest : Text)
    (blank : isBlank c = true) : clauseTest word value? previous (c :: rest) = none := by
  rw [clauseTest]
  split
  · simp only [Recogniser.sequence, List.foldr_cons, andThen, keyword_blank solid blank]
  · rfl

/-- **Clauses ignore the spacing.** -/
theorem clause?_squeeze (solid : IsSolid word)
    (agrees : ∀ rest, other? (squeeze rest) = (value? rest).map convert) (segment : Text) :
    clause? word other? (squeeze segment) = (clause? word value? segment).map convert := by
  rw [clause?_eq, clause?_eq, search_squeeze (clauseTest_blank solid)
    (clauseTest_squeeze solid agrees) rfl, Option.map_map, Option.map_map]
  rfl

end Clause

/-! ### Values -/

/-- No word that ends a type holds white space. -/
theorem isSolid_of_mem_terminators {word : String} (member : word ∈ terminators) :
    IsSolid word := by
  have checked : ∀ word ∈ terminators, word.toList ≠ [] ∧
      word.toList.all (!isBlank ·) = true := by decide
  obtain ⟨nonempty, visible⟩ := checked word member
  exact ⟨nonempty, visible⟩

/-- A word ends at the same places after squeezing. -/
theorem endsWord_squeeze (rest : Text) : endsWord (squeeze rest) = endsWord rest := by
  have space : isBlank ' ' = true := by decide
  have heads := @any_head?_squeeze isWordChar
    (fun c blank => by rw [isWordChar_of_isBlank blank, isWordChar_of_isBlank space]) rest
  rw [endsWord, endsWord, heads]

/-- A type ends at the same places after squeezing. -/
theorem terminatorAt_squeeze {first second : Option Char}
    (alike : startsWord second = startsWord first) (text : Text) :
    terminatorAt second (squeeze text) = terminatorAt first text := by
  rw [terminatorAt, terminatorAt, alike]
  refine congrArg _ (Bool.eq_iff_iff.mpr ?_)
  rw [List.any_eq_true, List.any_eq_true]
  refine exists_congr fun word => and_congr_right fun member => ?_
  rw [keyword_squeeze (isSolid_of_mem_terminators member)]
  cases keyword word text with
  | none => rfl
  | some parts => simp only [Option.map_some, endsWord_squeeze]

/-- The test for the end of a type commutes with squeezing. -/
theorem terminatorTest_squeeze (first second : Option Char) (rest : Text)
    (alike : startsWord second = startsWord first) :
    terminatorTest second (squeeze rest) = (terminatorTest first rest).map id := by
  rw [terminatorTest, terminatorTest, terminatorAt_squeeze alike, Option.map_id_fun, id]

/-- No type ends at white space. -/
theorem terminatorTest_blank (previous : Option Char) (c : Char) (rest : Text)
    (blank : isBlank c = true) : terminatorTest previous (c :: rest) = none := by
  have refused : terminatorAt previous (c :: rest) = false := by
    rw [terminatorAt, Bool.and_eq_false_iff]
    refine Or.inr (List.any_eq_false.mpr fun word member => ?_)
    rw [keyword_blank (isSolid_of_mem_terminators member) blank]
    simp
  rw [terminatorTest, refused]
  rfl

/-- A type is its first character and what stands before the first word that ends it. -/
theorem untilTerminator_eq (c : Char) (rest : Text) :
    untilTerminator (c :: rest) =
      c :: ((search terminatorTest (some c) rest).map Prod.fst).getD rest := by
  unfold terminatorTest
  rw [untilTerminator]
  split <;> simp_all

/-- What stands before a terminator commutes with squeezing. -/
theorem untilTerminator_squeeze {text : Text} (starts : text.head?.any isBlank = false) :
    untilTerminator (squeeze text) = squeeze (untilTerminator text) := by
  cases text with
  | nil => rfl
  | cons c rest =>
      have visible : isBlank c = false := by simpa using starts
      rw [squeeze_cons visible, untilTerminator_eq, untilTerminator_eq, squeeze_cons visible,
        search_squeeze terminatorTest_blank terminatorTest_squeeze rfl]
      cases search terminatorTest (some c) rest <;> rfl

/-- The type that is read is the same after squeezing, up to white space. -/
theorem collapse_returnsIn_squeeze (segment : Text) :
    (returnsIn (squeeze segment)).collapse = (returnsIn segment).collapse := by
  rw [returnsIn, clause?_squeeze ⟨by decide, by decide⟩ fun rest => (Option.map_some ..).symm,
    returnsIn]
  cases found : clause? "RETURNS" some segment with
  | none => rfl
  | some rest =>
      have starts : rest.head?.any isBlank = false := by
        rw [clause?_eq, Option.map_eq_some_iff] at found
        obtain ⟨⟨passed, value⟩, searched, rfl⟩ := found
        obtain ⟨tail, _, accepted⟩ := eq_append_of_search searched
        obtain ⟨_, _, _, _, _, _, _, _, visible, same⟩ := clauseTest_eq_some_iff.mp accepted
        cases same
        exact visible
      simp only [Option.map_some, untilTerminator_squeeze starts, collapse_trim, collapse_squeeze]

/-- A name without quotes is the longest front of its characters. -/
theorem languageName?_of_bare {text : Text} (bare : text.head? ≠ some '"') :
    languageName? text = (run1 isFoldedIdentifierChar text).map Prod.fst := by
  rw [languageName?]
  rintro rest rfl
  exact bare rfl

/-- A quoted name is what stands before the closing quote. -/
theorem languageName?_quoted (rest : Text) :
    languageName? ('"' :: rest) =
      match run1 (· != '"') rest with
      | some (name, after) => (char '"' after).map fun _ => name
      | none => none := by
  simp only [languageName?, Recogniser.sequence, List.foldr_cons, List.foldr_nil, andThen, nothing]
  cases run1 (· != '"') rest with
  | none => rfl
  | some parts =>
      cases found : char '"' parts.2 with
      | none => simp [found]
      | some closing =>
          obtain ⟨accepted, after⟩ := closing
          obtain ⟨rfl, _⟩ := char_eq_some_iff.mp found
          simp [found]

/-- The name of a language commutes with squeezing. -/
theorem languageName?_squeeze (text : Text) :
    languageName? (squeeze text) = (languageName? text).map squeeze := by
  have mark : isBlank '"' = false := by decide
  by_cases quoted : text.head? = some '"'
  · obtain ⟨rest, rfl⟩ := List.head?_eq_some_iff.mp quoted
    have alike : ∀ c, isBlank c = true → (c != '"') = (' ' != '"') := by
      intro c blank
      have differs : c ≠ '"' := by
        rintro rfl
        rw [mark] at blank
        cases blank
      simp [differs]
    rw [squeeze_cons mark, languageName?_quoted, languageName?_quoted, run1_squeeze alike]
    cases run1 (· != '"') rest with
    | none => rfl
    | some parts => simp [char_squeeze mark, Function.comp_def]
  · have bare : (squeeze text).head? ≠ some '"' := by
      cases text with
      | nil => exact quoted
      | cons c rest =>
          cases blank : isBlank c with
          | false => rwa [squeeze_cons blank]
          | true => simp [squeeze_blank blank]
    have fails {c : Char} : isBlank c = true → isFoldedIdentifierChar c = false :=
      eq_false_of_isBlank (by decide)
    rw [languageName?_of_bare bare, languageName?_of_bare quoted,
      run1_squeeze fun c blank => (fails blank).trans (fails (by decide)).symm, Option.map_map,
      Option.map_map]
    rfl

/-- The language that is read is the same after squeezing, up to white space. -/
theorem collapse_languageIn_squeeze (segment : Text) :
    (languageIn (squeeze segment)).collapse = (languageIn segment).collapse := by
  rw [languageIn, clause?_squeeze ⟨by decide, by decide⟩ languageName?_squeeze,
    Language.collapse_resolve_squeeze,
    languageIn]

/-- Digits are read the same after squeezing. -/
theorem digits_squeeze (text : Text) :
    run1 Char.isDigit (squeeze text) =
      (run1 Char.isDigit text).map fun (digits, rest) => (digits, squeeze rest) := by
  have fails {c : Char} : isBlank c = true → c.isDigit = false :=
    eq_false_of_isBlank (by decide)
  rw [run1_squeeze fun c blank => (fails blank).trans (fails (by decide)).symm]
  cases found : run1 Char.isDigit text with
  | none => rfl
  | some parts =>
      obtain ⟨_, _, digits, _⟩ := run1_eq_some_iff.mp found
      have visible : ∀ c ∈ parts.1, isBlank c = false := fun c member => by
        rw [Bool.eq_false_iff]
        intro blank
        have digit := digits c member
        rw [fails blank] at digit
        cases digit
      simp [squeeze_of_visible visible]

/-- A number is read the same after squeezing. -/
theorem number_squeeze (text : Text) :
    number (squeeze text) =
      (number text).map fun (digits, rest) => (digits, squeeze rest) := by
  simp only [number, Recogniser.sequence, List.foldr_cons, List.foldr_nil, andThen,
    Recogniser.optional, nothing, digits_squeeze]
  cases run1 Char.isDigit text with
  | none => rfl
  | some whole =>
      simp only [Option.map_some, char_squeeze (show isBlank '.' = false by decide)]
      cases char '.' whole.2 with
      | none => rfl
      | some point =>
          simp only [Option.map_some, digits_squeeze]
          cases run1 Char.isDigit point.2 <;> rfl

/-- The number of a clause is the same after squeezing. -/
theorem numberIn_squeeze {word : String} (solid : IsSolid word) (segment : Text) :
    numberIn word (squeeze segment) = numberIn word segment := by
  have agrees (rest : Text) : (number (squeeze rest)).map (fun (digits, _) => digits) =
      ((number rest).map fun (digits, _) => digits).map id := by
    rw [number_squeeze, Option.map_map, Option.map_map]
    rfl
  rw [numberIn, clause?_squeeze solid agrees, Option.map_id_fun, numberIn, id]

/-- The word of a mode is read the same after squeezing. -/
theorem parallelWord?_squeeze (text : Text) :
    parallelWord? (squeeze text) = parallelWord? text := by
  have words (word : String) (solid : IsSolid word) := keyword_squeeze solid text
  rw [parallelWord?, parallelWord?, orElse, orElse, orElse, orElse,
    words "SAFE" ⟨by decide, by decide⟩, words "RESTRICTED" ⟨by decide, by decide⟩,
    words "UNSAFE" ⟨by decide, by decide⟩,
    ← Option.map_or, ← Option.map_or]
  cases (keyword "SAFE" text).or ((keyword "RESTRICTED" text).or (keyword "UNSAFE" text)) with
  | none => rfl
  | some parts => simp only [Option.map_some, endsWord_squeeze]

/-- The mode of a clause is the same after squeezing. -/
theorem parallelIn_squeeze (segment : Text) :
    parallelIn (squeeze segment) = parallelIn segment := by
  have agrees (rest : Text) : parallelWord? (squeeze rest) = (parallelWord? rest).map id := by
    rw [parallelWord?_squeeze, Option.map_id_fun, id]
  rw [parallelIn, clause?_squeeze ⟨by decide, by decide⟩ agrees, Option.map_id_fun, parallelIn, id]

/-- The text of the flags is the same after squeezing. -/
theorem flagText_squeeze (segment : Text) : flagText (squeeze segment) = flagText segment := by
  rw [flagText, flagText, collapse_squeeze]

/-! ### All options -/

/-- Options with the white space in the type and in the name of the language collapsed. -/
def collapse (options : Options) : Options :=
  { options with
    returns := options.returns.collapse
    language := options.language.collapse }

/-- **Options ignore the kind of line breaks.** -/
theorem collapse_ofText_normalize (segment : Text) :
    (ofText segment.normalize).collapse = (ofText segment).collapse := by
  have same := squeeze_maskComments_normalize segment
  have flags := flagText_squeeze segment.normalize.maskComments
  have returns := collapse_returnsIn_squeeze segment.normalize.maskComments
  have language := collapse_languageIn_squeeze segment.normalize.maskComments
  have parallel := parallelIn_squeeze segment.normalize.maskComments
  have number (word : String) (solid : IsSolid word) :=
    numberIn_squeeze solid segment.normalize.maskComments
  have cost := number "COST" ⟨by decide, by decide⟩
  have rows := number "ROWS" ⟨by decide, by decide⟩
  rw [same] at flags returns language parallel cost rows
  rw [flagText_squeeze] at flags
  rw [collapse_returnsIn_squeeze] at returns
  rw [collapse_languageIn_squeeze] at language
  rw [parallelIn_squeeze] at parallel
  rw [numberIn_squeeze ⟨by decide, by decide⟩] at cost rows
  simp only [ofText, collapse, flags, returns, language, parallel, cost, rows]

end Options

end RoutineScripts
