import RoutineScripts.Proofs.Routine.Exchange
import RoutineScripts.Proofs.Routine.Keyword
import RoutineScripts.Proofs.Routine.Name
import RoutineScripts.Proofs.Routine.Options
import RoutineScripts.Routine.Definition

/-!
# Printing and reading back

A `Declaration` is what a function definition declares, and `Declaration.print` writes it on one
line with quoted names and a dollar-quoted body. The main statement is
`Declaration.ofText?_print`: reading what was printed gives the declaration back, whatever the
names, the arguments and the body hold, as long as they are well-formed.

The names, arguments and body are passed over by every search for structure (`Text.Passes`). What
is printed between the arguments and the body is a row of words, in which the first `AS` is the one
before the body (`Declaration.WellFormed.leadsTo`).
-/

namespace RoutineScripts

namespace Text

/-! ### The keyword before the body -/

/-- The test by which the keyword before the body is looked for. -/
def bodyTest (previous : Option Char) (text : Text) : Option Unit :=
  if keywordAt previous text ['A', 'S'] then some () else none

/-- The keyword before the body: two letters with no identifier character next to them. -/
def BodyKeyword (previous : Option Char) (word rest : Text) : Prop :=
  ∃ a b, word = [a, b] ∧ a.toLower = 'a' ∧ b.toLower = 's' ∧
    previous.any isIdentifierChar = false ∧ rest.head?.any isIdentifierChar = false

/-- The test for the keyword of a body reads it as a word. -/
theorem readsWord_bodyTest : ReadsWord bodyTest BodyKeyword := by
  refine ⟨fun previous word rest found => ?_, fun previous text found accepted => ?_⟩
  · obtain ⟨a, b, rfl, first, second, _⟩ := found
    refine ⟨List.cons_ne_nil _ _, fun member => ?_⟩
    simp only [List.mem_cons, List.not_mem_nil, or_false] at member
    rcases member with rfl | rfl
    · exact absurd first (by decide)
    · exact absurd second (by decide)
  · have stands : keywordAt previous text ['A', 'S'] = true := by
      simpa [bodyTest] using accepted
    obtain ⟨a, b, tail, rfl, first, second, ends⟩ := eq_cons_of_keywordAt stands
    refine ⟨[a, b], tail, rfl, a, b, rfl, first, second, ?_, ends⟩
    simp only [keywordAt] at stands
    split at stands
    case h_1 => cases stands
    case h_2 => simpa using (Bool.and_eq_true_iff.mp stands).1

end Text

open Text

/-- A piece that lacks the word does not hold the keyword before a body. -/
theorem Options.Lacks.not_bodyKeyword {piece : Text} (lacks : Options.Lacks ["AS"] piece)
    {front word rest tail : Text} (separates : Separates tail)
    (split : piece = front ++ word ++ rest) :
    ¬ BodyKeyword (some (front.getLast?.getD ' ')) word (rest ++ tail) := by
  rintro ⟨a, b, rfl, first, second, starts, ends⟩
  have pieces := lacks.pieces
  rw [split] at pieces
  simp only [List.mem_append, or_imp, forall_and, List.forall_mem_cons] at pieces
  obtain ⟨⟨inFront, isPiece, isPieceToo, _⟩, inRest⟩ := pieces
  have upper {c : Char} (piece : isPieceChar c = true) : c.toLower.toUpper = c.toUpper :=
    (upper_of_isPieceChar piece).2.2.1
  have formOfA : isFormOf 'A' a = true := by simp [isFormOf, ← upper isPiece, first]
  have formOfS : isFormOf 'S' b = true := by simp [isFormOf, ← upper isPieceToo, second]
  refine lacks.not_keywordAt separates split
    ⟨?_, ⟨"AS", by simp, formOfA, formOfS, trivial⟩, ?_⟩
  · rw [startsWord_getD]
    cases last : front.getLast? with
    | none => rfl
    | some c =>
        rw [last] at starts
        have notIdentifier : isIdentifierChar c = false := starts
        simp [startsWord, isWordChar_of_isPieceChar (inFront c (List.mem_of_getLast? last)),
          notIdentifier]
  · rw [endsWord_append _ separates]
    cases rest with
    | nil => rfl
    | cons c rest =>
        have notIdentifier : isIdentifierChar c = false := ends
        simp [endsWord, isWordChar_of_isPieceChar (inRest c List.mem_cons_self), notIdentifier]

namespace Text

/-- The search for the keyword passes over plain text without parentheses as a search for words
does. -/
theorem splitAs?_of_misses {previous : Option Char} {front back : Text}
    (plain : ∀ c ∈ front, c ∉ ['-', '/', '$', '\'', '"']) (flat : ∀ c ∈ front, c ∉ ['(', ')'])
    (misses : Misses bodyTest previous front back) :
    splitAs? previous 0 (scan (front ++ back)) =
      (splitAs? (front.getLast?.or previous) 0 (scan back)).map
        fun (before, after) => (front ++ before, after) := by
  induction front generalizing previous with
  | nil => simp
  | cons c front ih =>
      obtain ⟨here, later⟩ := List.forall_mem_cons.mp plain
      obtain ⟨flatHere, flatLater⟩ := List.forall_mem_cons.mp flat
      obtain ⟨refused, missed⟩ := misses_cons.mp misses
      simp only [List.mem_cons, List.not_mem_nil, or_false, not_or] at flatHere
      let glyph : Glyph := ⟨c, .single, .normal, .normal⟩
      have notHere : ¬ Marks previous 0 [] glyph (scan (front ++ back)) := by
        rintro ⟨_, _, found⟩
        have whole : ofGlyphs (glyph :: scan (front ++ back)) = c :: (front ++ back) :=
          congrArg (c :: ·) (ofGlyphs_scan _)
        rw [whole] at found
        have accepted : bodyTest previous (c :: (front ++ back)) = some () := if_pos found
        rw [refused] at accepted
        cases accepted
      have level : Glyph.depthStep 0 glyph = 0 := by
        simp [Glyph.depthStep_eq, Glyph.isTopLevelChar, glyph, flatHere]
      rw [List.cons_append, scan_cons_of_plain here, splitAs?_of_not_marks notHere, level,
        ih later flatLater missed, List.getLast?_cons, Option.some_or, Option.map_map]
      cases front.getLast? <;> rfl

/-- The keyword is found where it stands between spaces. -/
theorem splitAs?_keyword (rest : Text) :
    splitAs? (some ' ') 0 (scan ('A' :: 'S' :: ' ' :: rest)) = some (['A', 'S'], ' ' :: rest) := by
  rw [scan_cons_of_plain (by decide), scan_cons_of_plain (by decide),
    scan_cons_of_plain (by decide)]
  have stands : Marks (some ' ') 0 [] ⟨'A', .single, .normal, .normal⟩
      (⟨'S', .single, .normal, .normal⟩ :: ⟨' ', .single, .normal, .normal⟩ :: scan rest) :=
    ⟨rfl, rfl, rfl⟩
  obtain ⟨second, others, shape, _, _, found⟩ := splitAs?_of_marks stands
  obtain ⟨rfl, rfl⟩ := List.cons.inj shape
  rw [found]
  exact congrArg (fun after => some (['A', 'S'], ' ' :: after)) (ofGlyphs_scan rest)

/-- **The first keyword.** After pieces that lack the word, the keyword is found where it is a
piece of its own. -/
theorem splitAs?_spaced {pieces : List Text}
    (lacks : ∀ piece ∈ pieces, Options.Lacks ["AS"] piece) (previous : Option Char) (rest : Text) :
    splitAs? previous 0 (scan (spaced pieces ++ [' '] ++ 'A' :: 'S' :: ' ' :: rest)) =
      some (spaced pieces ++ [' '] ++ ['A', 'S'], ' ' :: rest) := by
  have plain : ∀ c ∈ spaced pieces ++ [' '],
      c ∉ ['-', '/', '$', '\'', '"'] ∧ c ∉ ['(', ')'] := by
    intro c member
    rcases List.mem_append.mp member with inside | space
    · exact plain_of_mem_spaced (fun piece member => (lacks piece member).pieces) inside
    · rw [List.mem_singleton.mp space]
      decide
  have misses : Misses bodyTest previous (spaced pieces ++ [' ']) ('A' :: 'S' :: ' ' :: rest) := by
    refine misses_append.mpr ⟨readsWord_bodyTest.misses_spaced (separates_space _) ?_ _,
      readsWord_bodyTest.misses_space _ _⟩
    exact fun piece member _ _ _ _ separates => (lacks piece member).not_bodyKeyword separates
  rw [splitAs?_of_misses (fun c member => (plain c member).1) (fun c member => (plain c member).2)
    misses, List.getLast?_concat, Option.some_or, splitAs?_keyword]
  rfl

end Text

/-- What a function definition declares. -/
structure Declaration where
  schema : Text
  name : Text
  arguments : Text
  returns : Text
  language : Text
  tag : Text
  content : Text

namespace Declaration

/-- The definition as text, such as `CREATE FUNCTION "s"."f"(a) RETURNS t LANGUAGE l AS $$b$$;`. -/
def print (declaration : Declaration) : Text :=
  "CREATE FUNCTION ".toList ++ declaration.schema.quoteName ++ ['.'] ++ declaration.name.quoteName
    ++ ['('] ++ declaration.arguments ++ ") RETURNS ".toList ++ declaration.returns
    ++ " LANGUAGE ".toList ++ declaration.language ++ " AS ".toList
    ++ declaration.tag ++ declaration.content ++ declaration.tag ++ [';']

/-- A declaration that can be printed. The names hold no quote. The scan of the arguments ends in
plain mode, with balanced parentheses and no semicolon at top level. The type and the language are
single words of which none ends a type. The tag does not close the body early. -/
structure WellFormed (declaration : Declaration) : Prop where
  bareSchema : '"' ∉ declaration.schema
  bareName : '"' ∉ declaration.name
  closed : declaration.arguments.endMode = .normal
  balanced : Balances 0 declaration.arguments.scan
  goesOn : ∀ glyph ∈ declaration.arguments.scan, glyph.isTopLevelChar ';' = false
  typed : declaration.returns ≠ []
  typeChars : ∀ c ∈ declaration.returns, isTypeChar c = true
  typeWords : ∀ word ∈ Options.terminators,
    Options.hasWord word declaration.returns.asciiUpper = false
  named : declaration.language ≠ []
  languageChars : ∀ c ∈ declaration.language, isIdentifierChar c = true
  languageWords : ∀ word ∈ Options.terminators,
    Options.hasWord word declaration.language.asciiUpper = false
  isTag : IsDollarTag declaration.tag
  first : FirstAfter declaration.tag declaration.content (declaration.content ++ declaration.tag)

/-- The parts of a printed declaration. -/
def script (declaration : Declaration) : Script where
  before := []
  header := ⟨.function, "CREATE FUNCTION ".toList⟩
  name := declaration.schema.quoteName ++ '.' :: declaration.name.quoteName
  arguments := declaration.arguments
  leading := spaced (Options.leading declaration.returns declaration.language)
  body := .dollar declaration.tag declaration.content
  trailing := [';']
  remark := none
  after := []

/-- A printed declaration is its prologue, its body and a semicolon. -/
theorem print_eq (declaration : Declaration) :
    declaration.print = declaration.script.prologue
      ++ (declaration.tag ++ declaration.content ++ declaration.tag) ++ [';'] := by
  have typed : ") RETURNS ".toList = ')' :: ' ' :: "RETURNS".toList ++ [' '] := rfl
  have named : " LANGUAGE ".toList = ' ' :: "LANGUAGE".toList ++ [' '] := rfl
  have opened : " AS ".toList = ' ' :: "AS".toList ++ [' '] := rfl
  unfold print script Script.prologue Options.leading spaced
  -- The words stand for any text from here on.
  generalize "CREATE FUNCTION ".toList = create
  generalize ") RETURNS ".toList = returns, "RETURNS".toList = first at typed ⊢
  generalize " LANGUAGE ".toList = language, "LANGUAGE".toList = second at named ⊢
  generalize " AS ".toList = keyword, "AS".toList = third at opened ⊢
  subst typed named opened
  simp

/-- The options of a printed declaration are the pieces of its segment. -/
theorem optionText_script (declaration : Declaration) :
    declaration.script.optionText =
      spaced (Options.segment declaration.returns declaration.language) :=
  (spaced_append _ [[';']]).symm

namespace WellFormed

variable {declaration : Declaration}

/-- A well-formed declaration has a type and a language that can be declared. -/
theorem declares (wellFormed : declaration.WellFormed) :
    Options.Declares declaration.returns declaration.language where
  typed := wellFormed.typed
  named := wellFormed.named
  lacksType :=
    ⟨fun c member => isPieceChar_of_isTypeChar (wellFormed.typeChars c member),
      wellFormed.typeWords⟩
  lacksLanguage :=
    ⟨fun c member => isPieceChar_of_isTypeChar
        (isTypeChar_of_isIdentifierChar (wellFormed.languageChars c member)),
      wellFormed.languageWords⟩
  identifier := wellFormed.languageChars

/-- The pieces before the body are made of type characters. -/
theorem typeChars_leading (wellFormed : declaration.WellFormed) :
    ∀ piece ∈ Options.leading declaration.returns declaration.language,
      ∀ c ∈ piece, isTypeChar c = true := by
  simp only [Options.leading, List.forall_mem_cons]
  exact ⟨List.all_eq_true.mp (by decide), wellFormed.typeChars, List.all_eq_true.mp (by decide),
    fun c member => isTypeChar_of_isIdentifierChar (wellFormed.languageChars c member),
    List.all_eq_true.mp (by decide), by simp⟩

/-- What stands between the arguments and the body opens, closes and ends nothing. -/
theorem plain_leading (wellFormed : declaration.WellFormed) {c : Char}
    (member : c ∈ declaration.script.leading) : c ∉ ['-', '/', '$', '\'', '"'] ∧ c ≠ ';' := by
  refine ⟨(plain_of_mem_spaced (fun piece inside c within =>
    isPieceChar_of_isTypeChar (wellFormed.typeChars_leading piece inside c within)) member).1, ?_⟩
  rintro rfl
  rcases mem_spaced member with space | ⟨piece, inside, within⟩
  · cases space
  · exact absurd (wellFormed.typeChars_leading piece inside ';' within) (by decide)

/-- The first `AS` between the arguments and the body is the one before the body. -/
theorem leadsTo (wellFormed : declaration.WellFormed) :
    Literal.LeadsTo (some ')') declaration.script.leading declaration.tag := by
  let pieces := ["RETURNS".toList, declaration.returns, "LANGUAGE".toList, declaration.language]
  have shape : declaration.script.leading = spaced pieces ++ [' '] ++ ['A', 'S', ' '] := by
    have ending : spaced ["AS".toList, []] = [' '] ++ ['A', 'S', ' '] := rfl
    rw [List.append_assoc, ← ending]
    exact spaced_append pieces ["AS".toList, []]
  have lacks : ∀ piece ∈ pieces, Options.Lacks ["AS"] piece := by
    have member : "AS" ∈ Options.terminators := by decide
    simp only [pieces, List.forall_mem_cons]
    exact ⟨by decide +kernel, wellFormed.declares.lacksType.of_mem member, by decide +kernel,
      wellFormed.declares.lacksLanguage.of_mem member, by simp⟩
  refine ⟨fun back => settles_of_plain (fun c member => (wellFormed.plain_leading member).1) _,
    spaced pieces ++ [' '] ++ ['A', 'S'], [' '], by simp [shape],
    List.forall_mem_singleton.mpr (by decide), fun back => ?_⟩
  rw [shape, List.append_assoc]
  exact splitAs?_spaced lacks (some ')') (declaration.tag ++ back)

/-- The names are passed over in the search for what they do not write. -/
theorem passes_name (wellFormed : declaration.WellFormed) (target : Char)
    (differs : target ∉ ['"', '.']) (back : Text) :
    Passes target declaration.script.name back := by
  simp only [List.mem_cons, List.not_mem_nil, or_false, not_or] at differs
  have dot : Passes target ['.'] (declaration.name.quoteName ++ back) :=
    passes_singleton differs.2 (by decide) _
  exact (passes_quoteName wellFormed.bareSchema differs.1 _).append
    (dot.append (passes_quoteName wellFormed.bareName differs.1 back))

/-- A printed declaration opens its body. -/
theorem opensBody (wellFormed : declaration.WellFormed) :
    Script.OpensBody declaration.script declaration.tag where
  isTag := wellFormed.isTag
  headed := by
    intro rest
    refine search_of_accepts ?_
    have read := Header.read?_function (declaration.script.name ++ '(' :: rest) rfl
    rw [List.append_assoc]
    exact read
  named := by
    intro rest
    have passes := wellFormed.passes_name '(' (by decide) ('(' :: rest)
    exact (splitTopLevel?_eq_some_iff inert_open).mpr ⟨rfl, passes.settles, passes.none⟩
  closed := splitParens?_of_balances wellFormed.closed wellFormed.balanced
  leads := wellFormed.leadsTo

/-- Nothing before the body ends the statement. -/
theorem passes_head (wellFormed : declaration.WellFormed) (back : Text) :
    Passes ';' declaration.script.head (declaration.tag ++ back) := by
  have leading : Passes ';' declaration.script.leading (declaration.tag ++ back) :=
    passes_of_plain (fun member => (wellFormed.plain_leading member).2 rfl)
      (fun c member => (wellFormed.plain_leading member).1) _
  have list : Passes ';' ([')'] ++ declaration.script.leading) (declaration.tag ++ back) :=
    (passes_singleton (by decide) (by decide) _).append leading
  have arguments : Passes ';' declaration.arguments
      (')' :: declaration.script.leading ++ (declaration.tag ++ back)) :=
    passes_of_endMode wellFormed.closed wellFormed.goesOn detached_close _
  have opening : Passes ';' ['('] (declaration.arguments ++ ([')'] ++ declaration.script.leading)
      ++ (declaration.tag ++ back)) :=
    passes_singleton (by decide) (by decide) _
  exact (wellFormed.passes_name ';' (by decide) _).append (opening.append (arguments.append list))

/-- **Printed scripts.** The parts of what was printed are found where they were printed. -/
theorem ofText?_eq (wellFormed : declaration.WellFormed)
    (quiet : Remark.OpensNowhere declaration.print 0 declaration.print.length) :
    Script.ofText? declaration.print = some declaration.script := by
  have opens := wellFormed.opensBody
  let literal := declaration.tag ++ declaration.content ++ declaration.tag
  have misses : Misses (fun _ rest => Remark.opening rest) none
      (declaration.script.head ++ literal) declaration.script.epilogue := by
    refine Script.misses_of_opensNowhere fun place below _ => ?_
    have spliced : declaration.script.splice literal = declaration.print :=
      declaration.print_eq.symm
    have within : place < declaration.print.length := by
      rw [print_eq, List.length_append]
      exact Nat.lt_add_right _ below
    rw [spliced]
    exact quiet place within (Nat.zero_le _)
  have cut := opens.cutStatement_append wellFormed.first misses fun _ =>
    (wellFormed.passes_head _).none
  rw [declaration.print_eq]
  exact opens.ofText?_eq wellFormed.first cut

end WellFormed

/-- **Reading inverts printing.** A well-formed declaration is read back from its text, if no
comment statement opens there: the names without their quotes, the arguments with normalized line
breaks, the type as written, the language that the name stands for, and the body, without any
option that was not printed. -/
theorem ofText?_print {declaration : Declaration} (wellFormed : declaration.WellFormed)
    (quiet : Remark.OpensNowhere declaration.print 0 declaration.print.length) :
    ∃ definition, Definition.ofText? declaration.print = some definition ∧
      definition.kind = .function ∧
      definition.name = ⟨some declaration.schema, declaration.name⟩ ∧
      definition.arguments = declaration.arguments.normalize.trimBlankLines ∧
      definition.returns = declaration.returns ∧
      definition.language = Language.resolve (some declaration.language) ∧
      definition.attributes = .function
        { volatility := .volatile
          leakproof := false
          strict := false
          cost := none
          rows := none
          window := false
          parallel := .serial } ∧
      definition.securityDefiner = false ∧
      definition.script.body = .dollar declaration.tag declaration.content ∧
      declaration.print.slice? definition.script.bodySpan =
        some (declaration.tag ++ declaration.content ++ declaration.tag) ∧
      definition.bodyText = declaration.content.trimBlankLines ∧
      definition.before = [] ∧
      definition.after = [] ∧
      definition.comment = none := by
  have options := Options.ofText_segment wellFormed.declares
  rw [← optionText_script] at options
  have name := QualifiedName.ofText_quoteName wellFormed.bareSchema declaration.name
  have sliced : declaration.print.slice? declaration.script.bodySpan =
      some (declaration.tag ++ declaration.content ++ declaration.tag) := by
    rw [print_eq]
    exact slice?_append ..
  refine ⟨Definition.ofScript declaration.script, ?_, ?_, name, rfl, ?_, ?_, ?_, ?_, rfl, sliced,
    rfl, rfl, rfl, rfl⟩
  · rw [Definition.ofText?, wellFormed.ofText?_eq quiet]
    rfl
  · rfl
  · rw [Definition.ofScript, options]
  · rw [Definition.ofScript, options]
  · rw [Definition.ofScript, options]
    rfl
  · rw [Definition.ofScript, options]

/-- A declaration whose names, arguments and body hold quotes, comments, parentheses and
semicolons. -/
def disguised : Declaration where
  schema := "s;(--".toList
  name := "n' $$ .AS".toList
  arguments := "a text = ');(', b numeric(3, 2), -- (;\r\n c text /* ) */ = $q$;)$q$".toList
  returns := "pg_catalog.int4[]".toList
  language := "PLpgSQL".toList
  tag := "$b_1$".toList
  content := "\n  BEGIN; $$ AS 'CREATE FUNCTION; $b$\n".toList

/-- A declaration with delimiters in its names, its arguments and its body is read back. -/
theorem ofText?_print_disguised :
    disguised.WellFormed ∧ Remark.OpensNowhere disguised.print 0 disguised.print.length ∧
      ∃ definition, Definition.ofText? disguised.print = some definition ∧
        definition.name = ⟨some "s;(--".toList, "n' $$ .AS".toList⟩ ∧
        definition.arguments =
          "a text = ');(', b numeric(3, 2), -- (;\n c text /* ) */ = $q$;)$q$".toList ∧
        definition.language = .plpgsql ∧
        definition.bodyText = "  BEGIN; $$ AS 'CREATE FUNCTION; $b$".toList := by
  have split : splitFirst? disguised.tag (disguised.content ++ disguised.tag) =
      some (disguised.content, []) := by decide +kernel
  have wellFormed : disguised.WellFormed :=
    { bareSchema := by decide +kernel
      bareName := by decide +kernel
      closed := by decide +kernel
      balanced := by decide +kernel
      goesOn := by decide +kernel
      typed := by decide
      typeChars := List.all_eq_true.mp (by decide +kernel)
      typeWords := by decide +kernel
      named := by decide
      languageChars := List.all_eq_true.mp (by decide +kernel)
      languageWords := by decide +kernel
      isTag := ⟨"b_1".toList, by decide, List.all_eq_true.mp (by decide)⟩
      first := (splitFirst?_eq_some_iff.mp split).2 }
  have quiet : Remark.OpensNowhere disguised.print 0 disguised.print.length := by decide +kernel
  obtain ⟨definition, found, _, name, arguments, _, language, _, _, _, _, body, _⟩ :=
    ofText?_print wellFormed quiet
  exact ⟨wellFormed, quiet, definition, found, name, arguments.trans (by decide +kernel),
    language.trans (by decide +kernel), body.trans (by decide +kernel)⟩

end Declaration

end RoutineScripts
