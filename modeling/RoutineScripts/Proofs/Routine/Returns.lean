import RoutineScripts.Proofs.Routine.Clause

/-!
# The type before the clauses

The type that a routine returns stands after `RETURNS` and goes on up to a word that ends it. Every
clause starts with such a word except for `RETURNS NULL ON NULL INPUT`, which starts with the
keyword of the type itself. So the type goes on with the leading clauses of this form, up to the
first other clause or the keyword of the body (`Options.exists_terminator`).

The main statement is `Definition.ofText?_returns`: the type is read as it is written exactly when
the first clause after it is not of this form. Clauses further on or after the body make no
difference.
-/

namespace RoutineScripts

namespace Text

/-- Words with one space between them. -/
def joined : List Text → Text
  | [] => []
  | word :: words => word ++ spaced words

/-- Joined words are pieces with a space in front. -/
theorem cons_joined {words : List Text} (nonempty : words ≠ []) :
    ' ' :: joined words = spaced words := by
  obtain ⟨word, words, rfl⟩ := List.exists_cons_of_ne_nil nonempty
  rfl

/-- More words are joined as pieces. -/
theorem joined_append {words : List Text} (nonempty : words ≠ []) (more : List Text) :
    joined (words ++ more) = joined words ++ spaced more := by
  obtain ⟨word, words, rfl⟩ := List.exists_cons_of_ne_nil nonempty
  simp [joined, spaced_append]

/-- Visible words with one space between them are squeezed. -/
theorem squeeze_joined_append {words : List Text}
    (visible : ∀ word ∈ words, word ≠ [] ∧ ∀ c ∈ word, isBlank c = false) (back : Text) :
    squeeze (joined words ++ back) = joined words ++ squeeze back := by
  cases words with
  | nil => rfl
  | cons word words =>
      obtain ⟨⟨_, here⟩, later⟩ := List.forall_mem_cons.mp visible
      rw [joined, List.append_assoc, squeeze_append_of_visible here,
        (Spread.spaced words).squeeze_append later, List.append_assoc]

/-- Joined words start with a visible character. -/
theorem head?_joined_append {words : List Text} (nonempty : words ≠ [])
    (visible : ∀ word ∈ words, word ≠ [] ∧ ∀ c ∈ word, isBlank c = false) (back : Text) :
    (joined words ++ back).head?.any isBlank = false := by
  obtain ⟨word, words, rfl⟩ := List.exists_cons_of_ne_nil nonempty
  obtain ⟨some, shown⟩ := visible word List.mem_cons_self
  obtain ⟨c, others, rfl⟩ := List.exists_cons_of_ne_nil some
  exact shown c List.mem_cons_self

/-- Joined words end in a visible character. -/
theorem getLast?_joined {words : List Text}
    (visible : ∀ word ∈ words, word ≠ [] ∧ ∀ c ∈ word, isBlank c = false) :
    (joined words).getLast?.any isBlank = false := by
  rcases List.eq_nil_or_concat words with rfl | ⟨init, word, shape⟩
  · rfl
  · rw [List.concat_eq_append] at shape
    obtain ⟨nonempty, shown⟩ := visible word (by simp [shape])
    have spelled := @cons_joined words (by simp [shape])
    rw [shape, spaced_append, ← shape] at spelled
    cases last : (joined words).getLast? with
    | none => rfl
    | some c =>
        have lasts := congrArg List.getLast? spelled
        simp only [List.getLast?_cons, last, spaced, List.flatMap_singleton, List.getLast?_append,
          List.getLast?_eq_some_getLast nonempty, Option.getD_some, Option.some_or,
          Option.some_inj] at lasts
        exact lasts ▸ shown _ (List.getLast_mem nonempty)

/-- The white space after joined words is trimmed. -/
theorem trim_joined_append {words : List Text} (nonempty : words ≠ [])
    (visible : ∀ word ∈ words, word ≠ [] ∧ ∀ c ∈ word, isBlank c = false) {gap : Text}
    (blank : ∀ c ∈ gap, isBlank c = true) : trim (joined words ++ gap) = joined words := by
  have starts := head?_joined_append nonempty visible []
  rw [List.append_nil] at starts
  exact trim_append gap starts (getLast?_joined visible) blank

/-- The white space after joined words is collapsed to nothing. -/
theorem collapse_joined_append {words : List Text} (nonempty : words ≠ [])
    (visible : ∀ word ∈ words, word ≠ [] ∧ ∀ c ∈ word, isBlank c = false) {gap : Text}
    (blank : ∀ c ∈ gap, isBlank c = true) : collapse (joined words ++ gap) = joined words := by
  have space : isBlank ' ' = true := by decide
  have solid : words.filter (!·.isEmpty) = words :=
    List.filter_eq_self.mpr fun word member => by simp [(visible word member).1]
  have collapsed : ' ' :: collapse (spaced words) = spaced words := by
    obtain ⟨word, words, rfl⟩ := List.exists_cons_of_ne_nil nonempty
    rw [collapse_spaced (visible word List.mem_cons_self).1 fun other member =>
      (visible other member).2, solid]
  rw [← cons_joined nonempty, collapse, List.dropWhile_cons_of_pos space, ← collapse] at collapsed
  rw [← collapse_trim, trim_joined_append nonempty visible blank]
  exact (List.cons.inj collapsed).2

/-- A start of a text that squeezes to some words and a space consists of the words and white
space. -/
theorem eq_append_of_squeeze {words : List Text} {start rest : Text}
    (visible : ∀ word ∈ words, word ≠ [] ∧ ∀ c ∈ word, isBlank c = false)
    (isStart : start <+: joined words ++ rest) (squeezed : squeeze start = joined words ++ [' ']) :
    ∃ gap, start = joined words ++ gap ∧ ∀ c ∈ gap, isBlank c = true := by
  obtain ⟨more, whole⟩ := isStart
  rcases List.append_eq_append_iff.mp whole with ⟨inner, shape, _⟩ | ⟨gap, rfl, _⟩
  · have longer := length_squeeze_le start
    rw [squeezed, shape, List.length_append, List.length_append, List.length_singleton] at longer
    omega
  · rw [squeeze_joined_append visible] at squeezed
    exact ⟨gap, rfl, blank_of_squeeze (List.append_cancel_left squeezed)⟩

end Text

namespace Options

open Text Recogniser

/-- What stands before a terminator is a front of the text. -/
theorem untilTerminator_isPrefix (text : Text) : untilTerminator text <+: text := by
  cases text with
  | nil => exact List.prefix_rfl
  | cons c rest =>
      rw [untilTerminator_eq]
      cases found : search terminatorTest (some c) rest with
      | none => exact List.prefix_rfl
      | some parts =>
          obtain ⟨tail, rfl, _⟩ := eq_append_of_search found
          exact ⟨tail, rfl⟩

/-- The words of a type. None of them ends it. -/
structure IsType (type : List Text) : Prop where
  nonempty : type ≠ []
  typed : ∀ word ∈ type, word ≠ [] ∧ word.all isTypeChar = true
  free : ∀ word ∈ type, ∀ terminator ∈ terminators, hasWord terminator word.asciiUpper = false

variable {type : List Text}

/-- The words of a type end no type. -/
theorem IsType.lacks (isType : IsType type) : ∀ word ∈ type, Lacks terminators word :=
  fun word member =>
    ⟨fun c inside =>
        isPieceChar_of_isTypeChar (List.all_eq_true.mp (isType.typed word member).2 c inside),
      isType.free word member⟩

theorem IsType.visible (isType : IsType type) :
    ∀ word ∈ type, word ≠ [] ∧ ∀ c ∈ word, isBlank c = false :=
  fun word member => ⟨(isType.typed word member).1, (isType.lacks word member).visible⟩

/-- The clauses that become part of a type before them: the leading ones that start with its
keyword. -/
def absorbed (clauses : List Written) : List Written :=
  clauses.takeWhile (·.clause = .returnsNull)

/-- Any other clause starts with a word that ends the type. -/
theorem Clause.head_terminator {clause : Clause} (other : clause ≠ .returnsNull) :
    ∃ word ∈ terminators, clause.keywords.head? = some word.toList := by
  cases clause with
  | returnsNull => exact absurd rfl other
  | volatility promise => cases promise <;> decide
  | parallel mode => cases mode <;> decide
  | _ => all_goals (simp only [keywords]; decide)

/-- The type goes on up to a word that ends it. -/
theorem exists_terminator {clauses : List Written} {keyword : Text}
    (upper : keyword.asciiUpper = "AS".toList) (ended : List Text) :
    ∃ word ∈ terminators, ∃ spelled rest, spelled.asciiUpper = word.toList ∧
      clauses.flatMap Written.tokens ++ keyword :: ended =
        (absorbed clauses).flatMap Written.tokens ++ spelled :: rest := by
  induction clauses with
  | nil => exact ⟨"AS", by decide, keyword, ended, upper, rfl⟩
  | cons written clauses ih =>
      by_cases goesOn : written.clause = .returnsNull
      · obtain ⟨word, member, spelled, rest, same, shape⟩ := ih
        refine ⟨word, member, spelled, rest, same, ?_⟩
        rw [absorbed, List.takeWhile_cons_of_pos (by simpa using goesOn), List.flatMap_cons,
          List.append_assoc, shape, List.flatMap_cons, List.append_assoc]
        rfl
      · obtain ⟨word, member, head⟩ := Clause.head_terminator goesOn
        rw [← written.spells, List.head?_map, Option.map_eq_some_iff] at head
        obtain ⟨spelled, isHead, same⟩ := head
        obtain ⟨others, split⟩ := List.head?_eq_some_iff.mp isHead
        refine ⟨word, member, spelled, others ++ written.clause.value?.toList ++
          (clauses.flatMap Written.tokens ++ keyword :: ended), same, ?_⟩
        rw [absorbed, List.takeWhile_cons_of_neg (by simpa using goesOn), List.flatMap_cons,
          Written.tokens, split]
        simp

/-- The words of absorbed clauses end no type. -/
theorem lacks_absorbed (clauses : List Written) :
    ∀ token ∈ (absorbed clauses).flatMap Written.tokens, Lacks terminators token := by
  intro token member
  obtain ⟨written, isAbsorbed, inside⟩ := List.mem_flatMap.mp member
  have goesOn : written.clause = .returnsNull := by
    simpa using List.all_eq_true.mp List.all_takeWhile written isAbsorbed
  have upper : token.asciiUpper ∈ Clause.returnsNull.words := by
    rw [← goesOn, ← written.map_tokens]
    exact List.mem_map_of_mem inside
  have free : ∀ word ∈ Clause.returnsNull.words, ∀ terminator ∈ terminators,
      hasWord terminator word = false := by decide
  exact ⟨fun c within => isPieceChar_of_isTypeChar ((written.solid token inside).2 c within),
    free _ upper⟩

/-- Up to white space, the type goes on with the leading clauses that start with its keyword. -/
theorem squeeze_untilTerminator (isType : IsType type) {clauses : List Written} {keyword : Text}
    (upper : keyword.asciiUpper = "AS".toList) {ended : List Text} {text : Text}
    (spread : Spread (clauses.flatMap Written.tokens ++ keyword :: ended) text)
    (visible : ∀ piece ∈ clauses.flatMap Written.tokens ++ keyword :: ended,
      piece ≠ [] ∧ ∀ c ∈ piece, isBlank c = false) :
    squeeze (untilTerminator (joined type ++ text)) =
      joined (type ++ (absorbed clauses).flatMap Written.tokens) ++ [' '] := by
  obtain ⟨terminator, member, spelled, rest, same, shape⟩ :=
    @exists_terminator clauses keyword upper ended
  obtain ⟨word, words, rfl⟩ := List.exists_cons_of_ne_nil isType.nonempty
  have nonempty := (isType.typed word List.mem_cons_self).1
  have starts := head?_joined_append isType.nonempty isType.visible text
  have whole : joined (word :: words) ++ squeeze text =
      word ++ spaced (words ++ (absorbed clauses).flatMap Written.tokens ++ spelled :: rest) := by
    rw [spread.squeeze_eq visible, shape, joined]
    simp [spaced_append]
  rw [← untilTerminator_squeeze starts, squeeze_joined_append isType.visible, whole,
    untilTerminator_spaced nonempty ?_ member (spells_of_asciiUpper same)]
  · simp [joined]
  · exact List.forall_mem_append.mpr ⟨isType.lacks, lacks_absorbed clauses⟩

/-- The type is found after its keyword. -/
theorem returnsIn_append {gap returns space rest : Text} (isGap : IsSpace gap)
    (upper : returns.asciiUpper = "RETURNS".toList) (isSpace : IsSpace space)
    (visible : rest.head?.any isBlank = false) :
    returnsIn (gap ++ (returns ++ (space ++ rest))) = (untilTerminator rest).trim := by
  have located : search (clauseTest "RETURNS" some) none (gap ++ (returns ++ (space ++ rest))) =
      some (gap, rest) := by
    refine search_eq_some_iff.mpr ⟨_, rfl, ?_, ?_⟩
    · rintro before c after rfl
      exact clauseTest_blank ⟨by decide, by decide⟩ _ _ _ (isGap.blank c (by simp))
    · refine clauseTest_eq_some_iff.mpr ⟨?_, returns, space, rest, rfl, spells_of_asciiUpper upper,
        isSpace.nonempty, isSpace.blank, visible, rfl⟩
      have blank := isGap.blank _ (List.getLast_mem isGap.nonempty)
      simp [startsWord, List.getLast?_eq_some_getLast isGap.nonempty, isWordChar_of_isBlank blank]
  rw [returnsIn, clause?_eq, located]
  rfl

theorem absorbed_eq_nil_iff {clauses : List Written} :
    absorbed clauses = [] ↔ clauses.head?.map Written.clause ≠ some .returnsNull := by
  cases clauses with
  | nil => simp [absorbed]
  | cons written clauses => by_cases same : written.clause = .returnsNull <;> simp [absorbed, same]

end Options

namespace Statement

open Text Options

variable {returns : Text} {type clauses trail : List Text}

/-- The type stands in a statement with one space between its words. -/
def SpacesType (statement : Statement (returns :: type ++ clauses) trail) : Prop :=
  ∃ gap space more, statement.before = gap ++ (returns ++ (space ++ (joined type ++ more))) ∧
    IsSpace gap ∧ IsSpace space ∧ Spread clauses more

/-- The words of a type and its clauses are tokens before a body. -/
theorem plain_typed (upper : returns.asciiUpper = "RETURNS".toList) (isType : IsType type)
    (first rest : List Written) :
    Plain (returns :: type ++ first.flatMap Written.tokens) (rest.flatMap Written.tokens) where
  typed := by
    intro token member
    simp only [List.cons_append, List.mem_cons, List.mem_append] at member
    rcases member with rfl | (inType | inFirst) | inRest
    · have identifier : ∀ c ∈ token, isIdentifierChar c = true :=
        isIdentifierChar_of_asciiUpper (upper ▸ by decide)
      exact fun c inside => isTypeChar_of_isIdentifierChar (identifier c inside)
    · exact List.all_eq_true.mp (isType.typed token inType).2
    · obtain ⟨written, _, inside⟩ := List.mem_flatMap.mp inFirst
      exact (written.solid token inside).2
    · obtain ⟨written, _, inside⟩ := List.mem_flatMap.mp inRest
      exact (written.solid token inside).2
  lacks := by
    intro token member
    simp only [List.cons_append, List.mem_cons, List.mem_append] at member
    rcases member with rfl | inType | inFirst
    · rw [upper]
      decide
    · exact isType.free token inType "AS" (by decide)
    · obtain ⟨written, _, inside⟩ := List.mem_flatMap.mp inFirst
      exact written.hasWord_as_eq_false token inside

/-- What is read as the type of a statement is, up to white space, the type and the leading clauses
that start with its keyword. -/
theorem exists_returns {first rest : List Written}
    (upper : returns.asciiUpper = "RETURNS".toList) (isType : IsType type)
    (statement : Statement (returns :: type ++ first.flatMap Written.tokens)
      (rest.flatMap Written.tokens)) (once : statement.SpacesType) :
    ∃ text, (Definition.ofScript statement.script).returns =
        (untilTerminator (joined type ++ text)).trim ∧
      squeeze (untilTerminator (joined type ++ text)) =
        joined (type ++ (absorbed first).flatMap Written.tokens) ++ [' '] := by
  obtain ⟨gap, space, more, before, isGap, isSpace, spread⟩ := once
  obtain ⟨others, tail, _⟩ := statement.exists_tail
  have visible : ∀ piece ∈ first.flatMap Written.tokens ++
      statement.keyword :: others.flatMap Part.pieces,
        piece ≠ [] ∧ ∀ c ∈ piece, isBlank c = false :=
    List.forall_mem_append.mpr
      ⟨visible_tokens first, @visible_pieces (.body _ statement.upper :: others)⟩
  refine ⟨more ++ statement.tail, ?_,
    squeeze_untilTerminator isType statement.upper (spread.append tail) visible⟩
  have masked : (Definition.ofScript statement.script).returns =
      returnsIn statement.script.optionText.maskComments := rfl
  rw [masked, maskComments_of_plain (plain_optionText (plain_typed upper isType first rest)),
    statement.optionText_eq, before, ← returnsIn_append isGap upper isSpace
      (head?_joined_append isType.nonempty isType.visible _)]
  simp

end Statement

namespace Options

open Text

/-- A type as it is read shows the clauses that became part of it. -/
theorem joined_eq_iff_absorbed {type : List Text} (isType : IsType type) {clauses : List Written} :
    joined (type ++ (absorbed clauses).flatMap Written.tokens) = joined type ↔
      absorbed clauses = [] := by
  rw [joined_append isType.nonempty, List.append_right_eq_self]
  constructor
  · intro none
    cases goesOn : absorbed clauses with
    | nil => rfl
    | cons written others =>
        obtain ⟨token, tokens, split⟩ := List.exists_cons_of_ne_nil written.tokens_ne_nil
        rw [goesOn, List.flatMap_cons, split] at none
        cases none
  · intro none
    rw [none]
    rfl

end Options

namespace Definition

open Options Text Recogniser

/-- **The type before the clauses.** Up to white space, a statement declares the type and the
clauses right after it that start with its keyword. It declares the type as written exactly when the
first clause before the body is no such clause. -/
theorem ofText?_returns {returns : Text} {type : List Text} {first rest : List Written}
    (upper : returns.asciiUpper = "RETURNS".toList) (isType : IsType type)
    (statement : Statement (returns :: type ++ first.flatMap Written.tokens)
      (rest.flatMap Written.tokens)) (once : statement.SpacesType) :
    ∃ definition, Definition.ofText? statement.text = some definition ∧
      definition.returns.collapse = joined (type ++ (absorbed first).flatMap Written.tokens) ∧
      (definition.returns = joined type ↔
        first.head?.map Written.clause ≠ some .returnsNull) := by
  obtain ⟨text, read, squeezed⟩ := Statement.exists_returns upper isType statement once
  have visible : ∀ word ∈ type ++ (absorbed first).flatMap Written.tokens,
      word ≠ [] ∧ ∀ c ∈ word, isBlank c = false :=
    List.forall_mem_append.mpr ⟨isType.visible, visible_tokens (absorbed first)⟩
  have collapsed : (Definition.ofScript statement.script).returns.collapse =
      joined (type ++ (absorbed first).flatMap Written.tokens) := by
    rw [read, collapse_trim, ← collapse_squeeze, squeezed, collapse_joined_append
      (List.append_ne_nil_of_left_ne_nil isType.nonempty _) visible isBlank_of_mem_space]
  refine ⟨Definition.ofScript statement.script, ?_, collapsed, ?_⟩
  · rw [Definition.ofText?, Statement.ofText?_text (Statement.plain_typed upper isType first rest)]
    rfl
  · rw [← absorbed_eq_nil_iff]
    constructor
    · intro same
      have kept := @collapse_joined_append type isType.nonempty isType.visible []
        (List.forall_mem_nil _)
      rw [List.append_nil] at kept
      exact (joined_eq_iff_absorbed isType).mp (by rw [← collapsed, same, kept])
    · intro none
      rw [none, List.flatMap_nil, List.append_nil] at squeezed
      obtain ⟨gap, split, blank⟩ :=
        eq_append_of_squeeze isType.visible (untilTerminator_isPrefix _) squeezed
      rw [read, split, trim_joined_append isType.nonempty isType.visible blank]

/-- Clauses before a body, the first one of which ends the type. -/
def varyingFirst : List Written :=
  [⟨.strict, ["Strict".toList], by decide, trivial⟩,
    ⟨.returnsNull, ["returns".toList, "null".toList, "on".toList, "null".toList, "input".toList],
      by decide, trivial⟩]

/-- Clauses after it. -/
def varyingRest : List Written :=
  [⟨.language "sql".toList, ["LANGUAGE".toList], by decide,
      ⟨by decide, by decide, by decide, by decide⟩⟩]

/-- A statement with a type of two words. -/
def varying : Statement
    ("returns".toList :: ["character".toList, "varying".toList]
      ++ varyingFirst.flatMap Written.tokens) (varyingRest.flatMap Written.tokens) where
  create := "CREATE".toList
  gap := " ".toList
  function := "function".toList
  space := " ".toList
  before := spaced ("returns".toList :: ["character".toList, "varying".toList]
    ++ varyingFirst.flatMap Written.tokens)
  keywordGap := " ".toList
  keyword := "AS".toList
  bodyGap := " ".toList
  after := spaced (varyingRest.flatMap Written.tokens)
  close := "\n".toList
  created := by decide
  isGap := by decide
  functional := by decide
  isSpace := by decide
  leads := Spread.spaced _
  isKeywordGap := by decide
  upper := by decide
  isBodyGap := by decide
  trails := Spread.spaced _
  closes := List.all_eq_true.mp (by decide)

/-- A type of two words is read as it is written. -/
theorem ofText?_varying :
    asciiUpper "returns".toList = "RETURNS".toList ∧
      IsType ["character".toList, "varying".toList] ∧ varying.SpacesType ∧
      ∃ definition, Definition.ofText? varying.text = some definition ∧
        definition.returns = "character varying".toList := by
  have upper : asciiUpper "returns".toList = "RETURNS".toList := by decide
  have isType : IsType ["character".toList, "varying".toList] :=
    ⟨by decide, by decide, by decide⟩
  have once : varying.SpacesType :=
    ⟨[' '], [' '], spaced (varyingFirst.flatMap Written.tokens), by decide, by decide, by decide,
      Spread.spaced _⟩
  refine ⟨upper, isType, once, ?_⟩
  obtain ⟨definition, read, _, exactly⟩ := ofText?_returns upper isType varying once
  exact ⟨definition, read, exactly.mpr (by decide)⟩

/-- Right after the type, the clause becomes part of it. -/
theorem ofText?_returnsNull :
    (Definition.ofText? ("CREATE FUNCTION f() RETURNS int RETURNS NULL ON NULL INPUT ".toList ++
        "AS $$x$$ LANGUAGE sql;".toList)).map Definition.returns =
      some "int RETURNS NULL ON NULL INPUT".toList := by
  decide +kernel

end Definition

end RoutineScripts
