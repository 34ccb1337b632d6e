import RoutineScripts.Proofs.Routine.Clause

/-!
# What clauses declare

A clause is looked for in the whole segment, so it is read from the first part that has its keyword
(`Options.clause?_flatMap`). Flags of one word are keywords of a clause
(`Options.hasWord_declared`).

A phrase joins two words, and those stand in one part: no part starts like the second word of a
phrase after a part that ends like the first one. So a phrase is found where its clause is written
(`Options.hasPhrase_declared`), and nowhere else.
-/

namespace RoutineScripts

namespace Options

open Text Recogniser

/-! ### What is read after a keyword -/

section Reading

variable {rest : Text}

/-- After a value come white space, the end of the statement or the end of the segment. -/
theorem any_head?_closing {test : Char → Bool} (space : test ' ' = false)
    (semicolon : test ';' = false) (last : Bool) (back : List Text) :
    (closing last ++ spaced back).head?.any test = false := by
  cases last with
  | true => exact semicolon
  | false =>
      cases back with
      | nil => rfl
      | cons piece back => exact space

/-- A sequence of two recognisers accepts what the two accept in turn. -/
theorem sequence_pair {first second : Recogniser} {text left middle right : Text}
    (one : first text = some (left, middle)) (two : second middle = some (right, rest)) :
    Recogniser.sequence [first, second] text = some (left ++ right, rest) := by
  simp [Recogniser.sequence, andThen, nothing, one, two]

/-- A number is read up to a character that is no digit and no point. -/
theorem number_append {number : Text} (isNumber : IsNumber number)
    (noDigit : rest.head?.any Char.isDigit = false) (noPoint : rest.head?.any (· == '.') = false) :
    Options.number (number ++ rest) = some (number, rest) := by
  have read {digits after : Text} (nonempty : digits ≠ [])
      (decimal : digits.all Char.isDigit = true) (stops : after.head?.any Char.isDigit = false) :
      run1 Char.isDigit (digits ++ after) = some (digits, after) :=
    run1_eq_some_iff.mpr ⟨nonempty, rfl, List.all_eq_true.mp decimal, stops⟩
  cases isNumber with
  | whole nonempty decimal =>
      have none : Recogniser.sequence [.char '.', .run1 Char.isDigit] rest = none := by
        cases rest with
        | nil => rfl
        | cons c rest =>
            have differs : c ≠ '.' := by simpa using noPoint
            simp [Recogniser.sequence, andThen, char, differs]
      have whole := sequence_pair (read nonempty decimal noDigit)
        (optional_eq_some_iff.mpr (Or.inr ⟨none, rfl, rfl⟩))
      rwa [List.append_nil] at whole
  | @fraction digits more nonempty decimal follows decimals =>
      have point : char '.' ('.' :: (more ++ rest)) = some (['.'], more ++ rest) :=
        char_eq_some_iff.mpr ⟨rfl, rfl⟩
      have fraction := sequence_pair point (read follows decimals noDigit)
      have stops : ('.' :: (more ++ rest)).head?.any Char.isDigit = false := rfl
      rw [List.append_assoc]
      exact sequence_pair (read nonempty decimal stops)
        (optional_eq_some_iff.mpr (Or.inl fraction))

/-- A keyword is not read where another letter stands first. -/
theorem keyword_eq_none {word : String} {letter c : Char} {letters : List Char}
    (spelled : word.toList = letter :: letters) (identifier : isIdentifierChar c.toUpper = true)
    (differs : c.toUpper ≠ letter) (text : Text) : keyword word (c :: text) = none := by
  have printable := isPieceChar_of_isTypeChar
    (isTypeChar_of_isIdentifierChar (isIdentifierChar_of_toUpper identifier))
  have other : isFormOf letter c = false := by
    rw [← Bool.not_eq_true]
    exact fun form => differs (toUpper_of_isFormOf printable form)
  rw [keyword, spelled, spell, other]
  rfl

/-- The word of a mode is read up to the end of the word. -/
theorem parallelWord?_append {word : Text} {mode : Parallelism}
    (upper : word.asciiUpper = mode.text) (ends : endsWord rest = true) :
    parallelWord? (word ++ rest) = some word := by
  have first {letter : Char} {letters : List Char} (shape : mode.text = letter :: letters) :
      ∃ c others, word = c :: others ∧ c.toUpper = letter := by
    rw [shape] at upper
    obtain ⟨c, others, rfl, same, _⟩ := List.map_eq_cons_iff.mp upper
    exact ⟨c, others, rfl, same⟩
  rw [parallelWord?, orElse, orElse]
  cases mode with
  | safe =>
      rw [keyword_of_asciiUpper upper rest]
      simp [ends]
  | restricted =>
      have read := @keyword_of_asciiUpper "RESTRICTED" _ upper rest
      obtain ⟨c, others, rfl, same⟩ := first rfl
      have safe : keyword "SAFE" (c :: others ++ rest) = none :=
        keyword_eq_none rfl (same ▸ by decide) (same ▸ by decide) _
      rw [safe, read]
      simp [ends]
  | serial =>
      have read := @keyword_of_asciiUpper "UNSAFE" _ upper rest
      obtain ⟨c, others, rfl, same⟩ := first rfl
      have safe : keyword "SAFE" (c :: others ++ rest) = none :=
        keyword_eq_none rfl (same ▸ by decide) (same ▸ by decide) _
      have restricted : keyword "RESTRICTED" (c :: others ++ rest) = none :=
        keyword_eq_none rfl (same ▸ by decide) (same ▸ by decide) _
      rw [safe, restricted, read]
      simp [ends]

end Reading

/-- A clause is read from the first part that is one. -/
theorem clause?_flatMap {α β γ : Type} {word : String} {value? : Text → Option α} {convert : α → γ}
    (isKeyword : IsKeyword word) {pieces : β → List Text} {read : β → Option γ} {parts : List β}
    (each : ∀ part ∈ parts, (read part = none ∧ ∀ piece ∈ pieces part, Lacks [word] piece) ∨
      ∃ spelled next found, pieces part = [spelled, next] ∧ Spells word.toList spelled ∧
        (∀ back, (next ++ spaced back).head?.any isBlank = false) ∧
        (∀ back, value? (next ++ spaced back) = some found) ∧ read part = some (convert found)) :
    (clause? word value? (spaced (parts.flatMap pieces))).map convert = parts.findSome? read := by
  cases first : parts.findSome? read with
  | none =>
      have lacks : ∀ piece ∈ parts.flatMap pieces, Lacks [word] piece := by
        intro piece inside
        obtain ⟨part, member, within⟩ := List.mem_flatMap.mp inside
        have nothing := List.findSome?_eq_none_iff.mp first part member
        rcases each part member with ⟨_, absent⟩ | ⟨_, _, _, _, _, _, _, something⟩
        · exact absent piece within
        · rw [nothing] at something
          cases something
      rw [clause?_eq_none isKeyword lacks]
      rfl
  | some value =>
      obtain ⟨front, part, back, rfl, here, before⟩ := List.findSome?_eq_some_iff.mp first
      have lacks : ∀ piece ∈ front.flatMap pieces, Lacks [word] piece := by
        intro piece inside
        obtain ⟨other, member, within⟩ := List.mem_flatMap.mp inside
        rcases each other (by simp [member]) with ⟨_, absent⟩ | ⟨_, _, _, _, _, _, _, something⟩
        · exact absent piece within
        · rw [before other member] at something
          cases something
      rcases each part (by simp) with
        ⟨nothing, _⟩ | ⟨spelled, next, found, shape, spells, visible, reads, something⟩
      · rw [nothing] at here
        cases here
      · have whole : (front ++ part :: back).flatMap pieces =
            front.flatMap pieces ++ spelled :: next :: back.flatMap pieces := by
          simp [shape]
        obtain rfl := Option.some.inj (here.symm.trans something)
        rw [whole, clause?_spaced isKeyword spells _ lacks (visible _) (reads _)]
        rfl

/-! ### Flags -/

/-- A phrase that is looked for, with its first two words and the clause that is written so. -/
structure Phrase where
  text : String
  first : Text
  second : Text
  clause : Clause

/-- The phrases that tell flags of more than one word. -/
def phrases : List Phrase :=
  [⟨"RETURNS NULL ON NULL INPUT", "RETURNS".toList, "NULL".toList, .returnsNull⟩,
    ⟨"CALLED ON NULL INPUT", "CALLED".toList, "ON".toList, .calledOnNull⟩,
    ⟨"SECURITY DEFINER", "SECURITY".toList, "DEFINER".toList, .definer⟩,
    ⟨"NOT LEAKPROOF", "NOT".toList, "LEAKPROOF".toList, .notLeakproof⟩]

/-- Two words of a clause join to a phrase only in the clause that is written so. -/
theorem Clause.unjoined (clause : Clause) (last : Bool) :
    ∀ phrase ∈ phrases, clause ≠ phrase.clause →
      Unjoined phrase.first phrase.second (close (closing last) clause.words) := by
  have apart : ∀ keyword ∈ ["LANGUAGE".toList, "COST".toList, "ROWS".toList],
      ∀ phrase ∈ phrases, ¬ phrase.first <:+ keyword := by decide
  cases clause with
  | language | cost | rows =>
      all_goals exact fun phrase isPhrase _ =>
        ⟨fun joined => apart _ (by decide) phrase isPhrase joined.1, trivial⟩
  | volatility promise => cases promise <;> cases last <;> decide
  | parallel mode => cases mode <;> cases last <;> decide
  | _ => all_goals (cases last <;> decide)

/-- No clause starts like the second word of a phrase, except for the one after `NOT`. -/
theorem Clause.head_upper (clause : Clause) (last : Bool) :
    ∀ next ∈ (close (closing last) clause.words).head?, ∀ phrase ∈ phrases,
      phrase.second <+: next → phrase.first = "NOT".toList := by
  cases clause with
  | volatility promise => cases promise <;> cases last <;> decide
  | parallel mode => cases mode <;> cases last <;> decide
  | strict | leakproof | window => all_goals (cases last <;> decide)
  | _ => all_goals (rintro next ⟨⟩; decide)

/-- No clause ends with `NOT`. -/
theorem Clause.WellFormed.last_upper {clause : Clause} (wellFormed : clause.WellFormed)
    (last : Bool) :
    ∀ word ∈ (close (closing last) clause.words).getLast?, ¬ "NOT".toList <:+ word := by
  have apart : ∀ word ∈ clause.words.getLast?, ¬ "NOT".toList <:+ word := by
    cases clause with
    | volatility promise => cases promise <;> decide
    | parallel mode => cases mode <;> decide
    | language | cost | rows => all_goals (rintro word ⟨⟩; exact (wellFormed.isValue rfl).notNot)
    | _ => all_goals decide
  intro word isLast
  rw [getLast?_close, Option.mem_def, Option.map_eq_some_iff] at isLast
  obtain ⟨token, isLast, rfl⟩ := isLast
  cases last with
  | false => simpa [closing] using apart token isLast
  | true =>
      rintro ⟨front, whole⟩
      have same := congrArg List.getLast? whole
      simp [closing, List.getLast?_append] at same

namespace Part

/-- Two words of a part join to a phrase only in the clause that is written so. -/
theorem unjoined (part : Part) : ∀ phrase ∈ phrases, part.clause? ≠ some phrase.clause →
    Unjoined phrase.first phrase.second part.upper := by
  intro phrase isPhrase other
  cases part with
  | clause written last =>
      exact written.clause.unjoined last phrase isPhrase fun same => other (congrArg some same)
  | body | finish => all_goals trivial

/-- No part starts like the second word of a phrase, except for the one after `NOT`. -/
theorem head_upper (part : Part) : ∀ next ∈ part.upper.head?, ∀ phrase ∈ phrases,
    phrase.second <+: next → phrase.first = "NOT".toList := by
  cases part with
  | clause written last => exact written.clause.head_upper last
  | body | finish => all_goals (rintro next ⟨⟩; decide)

/-- No part ends in `NOT`. -/
theorem last_upper (part : Part) : ∀ word ∈ part.upper.getLast?, ¬ "NOT".toList <:+ word := by
  cases part with
  | clause written last => exact written.wellFormed.last_upper last
  | body | finish => all_goals (rintro word ⟨⟩; decide)

end Part

section Flags

variable (parts : List Part)

/-- In upper case, the pieces of a segment are the words of its parts. -/
theorem map_pieces : (parts.flatMap Part.pieces).map asciiUpper = parts.flatMap Part.upper := by
  rw [List.map_flatMap]
  exact congrArg parts.flatMap (funext Part.map_pieces)

/-- The pieces in which the flags of a segment are looked for. The last one is empty. -/
def upperPieces : List Text :=
  parts.flatMap Part.upper ++ [[]]

variable {parts}

/-- Flags are looked for in the words of the parts. -/
theorem flagText_parts (nonempty : parts ≠ []) :
    flagText (spaced (parts.flatMap Part.pieces)) = spaced (upperPieces parts) := by
  have solid := @solid_pieces parts
  obtain ⟨piece, pieces, shape⟩ : ∃ piece pieces, parts.flatMap Part.pieces = piece :: pieces := by
    refine List.exists_cons_of_ne_nil fun none => ?_
    obtain ⟨part, others, rfl⟩ := List.exists_cons_of_ne_nil nonempty
    exact part.solid.1 (List.append_eq_nil_iff.mp none).1
  rw [shape] at solid
  have kept : (piece :: pieces).filter (!·.isEmpty) = piece :: pieces :=
    List.filter_eq_self.mpr fun other member => by simp [(solid other member).1]
  rw [upperPieces, ← map_pieces, shape, flagText_spaced (solid piece List.mem_cons_self).1
    fun other member => (solid other member).2, kept]

/-- These words are in upper case, and their characters may stand in a piece. -/
theorem solid_upperPieces : ∀ piece ∈ upperPieces parts,
    piece.asciiUpper = piece ∧ ∀ c ∈ piece, isPieceChar c = true := by
  intro piece member
  rw [upperPieces, ← map_pieces] at member
  rcases List.mem_append.mp member with inside | last
  · obtain ⟨token, isToken, rfl⟩ := List.mem_map.mp inside
    obtain ⟨_, printable⟩ := solid_pieces token isToken
    refine ⟨asciiUpper_asciiUpper printable, fun c within => ?_⟩
    obtain ⟨d, isChar, rfl⟩ := List.mem_map.mp within
    exact (upper_of_isPieceChar (printable d isChar)).1
  · obtain rfl := List.mem_singleton.mp last
    exact ⟨rfl, List.forall_mem_nil _⟩

/-- A flag is set when it is a keyword of a part. -/
theorem hasWord_parts {word : String} (member : word ∈ terminators) (regular : word ≠ "__END__") :
    hasWord word (spaced (upperPieces parts)) =
      parts.any fun part => decide (word.toList ∈ part.keywords) := by
  have none : hasWord word [] = false := by
    rw [hasWord_of_identifier fun _ member => absurd member List.not_mem_nil]
    simpa using (terminators_solid word member).1.symm
  rw [hasWord_spaced_eq_any (isKeyword_of_mem_terminators member)
    (fun piece inside => (solid_upperPieces piece inside).1)
    (fun piece inside => (solid_upperPieces piece inside).2), upperPieces, List.any_append,
    List.any_flatMap]
  simp [none, Part.any_hasWord _ member regular]

end Flags

/-! ### The options of a segment -/

namespace Clause

/-- The name of a language clause. -/
def language? : Clause → Option Text
  | language name => some name
  | _ => none

/-- The promise of a volatility clause. -/
def volatility? : Clause → Option Volatility
  | volatility promise => some promise
  | _ => none

/-- Whether a clause says what the routine does with a null argument. -/
def isNullInput : Clause → Bool
  | strict | calledOnNull | returnsNull => true
  | _ => false

/-- The number of a cost clause. -/
def cost? : Clause → Option Text
  | cost number => some number
  | _ => none

/-- The number of a clause for rows. -/
def rows? : Clause → Option Text
  | rows number => some number
  | _ => none

/-- The mode of a parallelism clause. -/
def parallel? : Clause → Option Parallelism
  | parallel mode => some mode
  | _ => none

end Clause

/-- A clause of one word is written as one token. -/
theorem eq_singleton_of_map {tokens : List Text} {word : Text}
    (upper : tokens.map asciiUpper = [word]) :
    ∃ token, tokens = [token] ∧ token.asciiUpper = word := by
  obtain ⟨token, _, rfl, same, nothing⟩ := List.map_eq_cons_iff.mp upper
  obtain rfl := List.map_eq_nil_iff.mp nothing
  exact ⟨token, rfl, same⟩

section Declared

variable {parts : List Part}

/-- What is looked for among parts is looked for among their clauses. -/
theorem findSome?_declared {α : Type} (project : Clause → Option α) :
    parts.findSome? (fun part => part.clause?.bind project) =
      (declared parts).findSome? project := by
  rw [declared, ← List.head?_filterMap, ← List.head?_filterMap, List.filterMap_filterMap]

/-- A flag of one word is set when it is a keyword of a clause. -/
theorem hasWord_declared {word : String} (member : word ∈ terminators)
    (regular : word ≠ "__END__") (other : word ≠ "AS") :
    hasWord word (spaced (upperPieces parts)) =
      (declared parts).any fun clause => decide (word.toList ∈ clause.keywords) := by
  have differs : word.toList ≠ "AS".toList := fun same => other (String.toList_inj.mp same)
  rw [hasWord_parts member regular, declared, List.any_filterMap]
  refine congrArg parts.any (funext fun part => ?_)
  cases part with
  | clause written last => rfl
  | body keyword upper =>
      exact decide_eq_false fun inside => differs (List.mem_singleton.mp inside)
  | finish => exact decide_eq_false List.not_mem_nil

/-- A clause with a value is read from the first one of its group. -/
theorem clause?_declared {α β : Type} {word : String} {group : Group} {value? : Text → Option α}
    {convert : α → β} {project : Clause → Option β} (isHead : (word, group) ∈ heads)
    (grouped : ∀ clause, clause.group = group → project clause ≠ none)
    (valued : ∀ (written : Written) (found : β), project written.clause = some found →
      ∃ spelled value read, written.tokens = [spelled, value] ∧ spelled.asciiUpper = word.toList ∧
        (∀ last back, value? (value ++ (closing last ++ spaced back)) = some read) ∧
        found = convert read) :
    (clause? word value? (spaced (parts.flatMap Part.pieces))).map convert =
      (declared parts).findSome? project := by
  have words : ∀ head ∈ heads, head.1 ∈ terminators ∧ head.1 ≠ "__END__" ∧ head.1 ≠ "AS" := by
    decide
  obtain ⟨member, regular, other⟩ := words _ isHead
  have differs : word.toList ≠ "AS".toList := fun same => other (String.toList_inj.mp same)
  rw [← findSome?_declared]
  refine clause?_flatMap (isKeyword_of_mem_terminators member) fun part _ => ?_
  cases part with
  | body keyword upper =>
      exact Or.inl ⟨rfl, Part.lacks _ member regular (by simpa [Part.keywords] using differs)⟩
  | finish => exact Or.inl ⟨rfl, Part.lacks _ member regular List.not_mem_nil⟩
  | clause written last =>
      cases here : project written.clause with
      | none =>
          refine Or.inl ⟨here, Part.lacks _ member regular fun inside => ?_⟩
          exact grouped _ ((written.clause.mem_keywords_iff_group _ isHead).mp inside) here
      | some found =>
          obtain ⟨spelled, value, read, tokens, upper, reads, rfl⟩ := valued written found here
          refine Or.inr ⟨spelled, value ++ closing last, read, ?_, spells_of_asciiUpper upper,
            fun back => ?_, fun back => ?_, here⟩
          · rw [Part.pieces, tokens]
            rfl
          · obtain ⟨nonempty, typed⟩ := written.solid value (by simp [tokens])
            obtain ⟨c, others, rfl⟩ := List.exists_cons_of_ne_nil nonempty
            exact isBlank_of_isPieceChar (isPieceChar_of_isTypeChar (typed c List.mem_cons_self))
          · rw [List.append_assoc]
            exact reads last back

/-- The name that is read is that of the first language clause. -/
theorem language?_declared : Options.clause? "LANGUAGE" languageName?
    (spaced (parts.flatMap Part.pieces)) = (declared parts).findSome? Clause.language? := by
  refine Option.map_id_apply.symm.trans
    (clause?_declared (show ("LANGUAGE", Group.language) ∈ heads by decide) ?_ ?_)
  · rintro (_ | _) ⟨⟩ ⟨⟩
  · rintro ⟨_ | _, spelled, spells, wellFormed⟩ name ⟨⟩
    obtain ⟨keyword, rfl, upper⟩ := eq_singleton_of_map spells
    exact ⟨keyword, _, _, rfl, upper, fun last back => languageName?_append wellFormed.nonempty
      (List.all_eq_true.mp wellFormed.identifier)
      (any_head?_closing (by decide) (by decide) last back), rfl⟩

/-- A number is read from the first clause of its group. -/
theorem number_declared {word : String} {group : Group} {project : Clause → Option Text}
    (isHead : (word, group) ∈ heads)
    (grouped : ∀ clause, clause.group = group → project clause ≠ none)
    (valued : ∀ (clause : Clause) (number : Text), project clause = some number →
      clause.keywords = [word.toList] ∧ clause.value? = some number ∧
        (clause.WellFormed → IsNumber number)) :
    numberIn word (spaced (parts.flatMap Part.pieces)) = (declared parts).findSome? project := by
  refine Option.map_id_apply.symm.trans
    (clause?_declared isHead grouped fun written found here => ?_)
  obtain ⟨keywords, value, isNumber⟩ := valued written.clause found here
  obtain ⟨keyword, spelled, upper⟩ := eq_singleton_of_map (keywords ▸ written.spells)
  refine ⟨keyword, found, found, by rw [Written.tokens, spelled, value]; rfl, upper,
    fun last back => ?_, rfl⟩
  rw [number_append (isNumber written.wellFormed)
    (any_head?_closing (by decide) (by decide) last back)
    (any_head?_closing (by decide) (by decide) last back)]
  rfl

/-- The cost that is read is that of the first cost clause. -/
theorem cost_declared : numberIn "COST" (spaced (parts.flatMap Part.pieces)) =
    (declared parts).findSome? Clause.cost? := by
  refine number_declared (show ("COST", Group.cost) ∈ heads by decide) ?_ ?_
  · rintro (_ | _) ⟨⟩ ⟨⟩
  · rintro (_ | _) number ⟨⟩
    exact ⟨rfl, rfl, id⟩

/-- The number of rows that is read is that of the first clause for it. -/
theorem rows_declared : numberIn "ROWS" (spaced (parts.flatMap Part.pieces)) =
    (declared parts).findSome? Clause.rows? := by
  refine number_declared (show ("ROWS", Group.rows) ∈ heads by decide) ?_ ?_
  · rintro (_ | _) ⟨⟩ ⟨⟩
  · rintro (_ | _) number ⟨⟩
    exact ⟨rfl, rfl, id⟩

/-- The parallelism that a word stands for. -/
def modeOf (word : Text) : Parallelism :=
  if word.asciiUpper = Parallelism.safe.text then .safe
  else if word.asciiUpper = Parallelism.restricted.text then .restricted
  else .serial

/-- The mode that is read is that of the first clause for it. -/
theorem parallel_declared : parallelIn (spaced (parts.flatMap Part.pieces)) =
    ((declared parts).findSome? Clause.parallel?).getD .serial := by
  have converted (segment : Text) : parallelIn segment =
      ((clause? "PARALLEL" parallelWord? segment).map modeOf).getD .serial := by
    rw [parallelIn]
    cases clause? "PARALLEL" parallelWord? segment <;> rfl
  rw [converted]
  refine congrArg (Option.getD · _)
    (clause?_declared (show ("PARALLEL", Group.parallel) ∈ heads by decide) ?_ ?_)
  · rintro (_ | _) ⟨⟩ ⟨⟩
  · rintro ⟨clause, spelled, spells, wellFormed⟩ mode here
    cases clause with
    | parallel given =>
        obtain rfl : given = mode := Option.some.inj here
        obtain ⟨keyword, _, rfl, upper, more⟩ := List.map_eq_cons_iff.mp spells
        obtain ⟨word, rfl, upperMode⟩ := eq_singleton_of_map more
        refine ⟨keyword, word, word, rfl, upper,
          fun last back => parallelWord?_append upperMode ?_, ?_⟩
        · rw [endsWord, any_head?_closing (by decide) (by decide) last back]
          rfl
        · rw [modeOf, upperMode]
          cases given <;> decide
    | _ => all_goals cases here

/-- A flag is set exactly when its clause is declared. -/
theorem hasFlag_declared : ∀ flag ∈ flags,
    hasWord flag.1 (spaced (upperPieces parts)) = (declared parts).contains flag.2 := by
  intro flag isFlag
  have word : ∀ flag ∈ flags, flag.1 ∈ terminators ∧ flag.1 ≠ "__END__" ∧ flag.1 ≠ "AS" := by decide
  obtain ⟨member, regular, other⟩ := word flag isFlag
  rw [hasWord_declared member regular other, Bool.eq_iff_iff, List.any_eq_true,
    List.contains_iff_mem]
  simp only [decide_eq_true_eq, Clause.mem_keywords_iff_eq _ flag isFlag, exists_eq_right]

/-- The word of this flag stands in both clauses of its group. -/
theorem leakproof_declared : hasWord "LEAKPROOF" (spaced (upperPieces parts)) =
    (declared parts).any (·.group = .leakproof) := by
  rw [hasWord_declared (by decide) (by decide) (by decide)]
  refine congrArg (declared parts).any (funext fun clause => ?_)
  simp only [clause.mem_keywords_iff_group ("LEAKPROOF", .leakproof) (by decide)]

/-- A phrase is found where its clause is written. -/
theorem hasPhrase_declared : ∀ phrase ∈ phrases,
    hasPhrase phrase.text (spaced (upperPieces parts)) =
      (declared parts).contains phrase.clause := by
  intro phrase isPhrase
  have checked : ∀ phrase ∈ phrases, (phrase.first ≠ [] ∧ ' ' ∉ phrase.first ∧
      phrase.second ≠ [] ∧ ' ' ∉ phrase.second) ∧
      phrase.first ++ ' ' :: phrase.second <:+: phrase.text.toList ∧
      spaced phrase.clause.words = ' ' :: phrase.text.toList := by decide
  obtain ⟨⟨nonempty, solidFirst, nonemptySecond, solidSecond⟩, joins, words⟩ :=
    checked phrase isPhrase
  cases found : (declared parts).contains phrase.clause with
  | false =>
      have absent (part : Part) (member : part ∈ parts) : part.clause? ≠ some phrase.clause := by
        intro isClause
        have inside : phrase.clause ∈ declared parts :=
          List.mem_filterMap.mpr ⟨part, member, isClause⟩
        simp [inside] at found
      have together : Unjoined phrase.first phrase.second (parts.flatMap Part.upper) := by
        refine unjoined_flatMap (fun part _ => part.upper_ne_nil)
          (fun part member => part.unjoined phrase isPhrase (absent part member)) ?_
        rintro first _ second _ last isLast next isNext ⟨ends, starts⟩
        rw [second.head_upper next isNext phrase isPhrase starts] at ends
        exact first.last_upper last isLast ends
      refine hasPhrase_spaced joins nonempty solidFirst solidSecond
        (fun piece member space => ?_) (together.append trivial ?_)
      · exact absurd ((solid_upperPieces piece member).2 ' ' space) (by decide)
      · rintro last _ next ⟨⟩ ⟨_, starts⟩
        exact nonemptySecond (List.prefix_nil.mp starts)
  | true =>
      obtain ⟨part, member, isClause⟩ := List.mem_filterMap.mp (List.contains_iff_mem.mp found)
      obtain ⟨front, back, rfl⟩ := List.append_of_mem member
      cases part with
      | clause written last =>
          have same : written.clause = phrase.clause := Option.some.inj isClause
          have upper : spaced (Part.clause written last).upper =
              ' ' :: phrase.text.toList ++ closing last := by
            rw [Part.upper, spaced_close _ written.clause.words_ne_nil, same, words]
          refine occursIn_iff.mpr ⟨spaced (front.flatMap Part.upper) ++ [' '],
            closing last ++ spaced (back.flatMap Part.upper ++ [[]]), ?_⟩
          simp [upperPieces, spaced_append, upper]
      | body | finish => all_goals cases isClause

end Declared

end Options

end RoutineScripts
