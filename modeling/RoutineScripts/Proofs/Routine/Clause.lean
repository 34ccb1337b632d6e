import RoutineScripts.Proofs.Routine.Division
import RoutineScripts.Proofs.Routine.Layout

/-!
# Option clauses as they are written

A clause (`Options.Clause`) has keywords, in any letter case, and some clauses have a value, which
is kept as written (`Options.Written`). The clauses of a statement, the keyword of its body and its
end are the parts of its options (`Options.Part`).

No word of a part can be mistaken for another one: the option keywords among the words of a part
are its own keywords (`Options.Part.any_hasWord`). A language name is an identifier and no keyword,
and a number has no letters.
-/

namespace RoutineScripts

namespace Options

open Text Recogniser

/-! ### Words of tokens -/

/-- Identifier characters hold a word only as a whole. -/
theorem hasWord_of_identifier {word : String} {piece : Text}
    (identifier : ∀ c ∈ piece, isIdentifierChar c = true) :
    hasWord word piece = decide (piece = word.toList) := by
  rw [Bool.eq_iff_iff, hasWord_eq_true_iff, decide_eq_true_eq]
  constructor
  · rintro ⟨front, back, rfl, starts, ends⟩
    have isWord (c : Char) (member : c ∈ front ++ word.toList ++ back) : isWordChar c = true := by
      have here := identifier c member
      rwa [isWordChar_of_isPieceChar
        (isPieceChar_of_isTypeChar (isTypeChar_of_isIdentifierChar here))]
    have noFront : front = [] := by
      rcases List.eq_nil_or_concat front with none | ⟨others, c, rfl⟩
      · exact none
      · have inside := isWord c (by simp)
        simp [startsWord, inside] at starts
    have noBack : back = [] := by
      cases back with
      | nil => rfl
      | cons c back =>
          have inside := isWord c (by simp)
          simp [endsWord, inside] at ends
    simp [noFront, noBack]
  · rintro rfl
    exact ⟨[], [], by simp, rfl, rfl⟩

/-- A semicolon after a text makes no difference to its words. -/
theorem hasWord_append_semicolon {word : String} (nonempty : word.toList ≠ [])
    (free : ';' ∉ word.toList) (piece : Text) :
    hasWord word (piece ++ [';']) = hasWord word piece := by
  rw [hasWord_append_cons free (by decide), hasWord_nil nonempty, Bool.or_false]

/-- A word stands in pieces that are identifiers exactly when it is one of them. -/
theorem any_hasWord_eq {word : String} {pieces : List Text}
    (identifier : ∀ piece ∈ pieces, piece.all isIdentifierChar = true) :
    pieces.any (hasWord word) = decide (word.toList ∈ pieces) := by
  rw [Bool.eq_iff_iff, List.any_eq_true, decide_eq_true_eq]
  have same (piece : Text) (member : piece ∈ pieces) :
      hasWord word piece = decide (piece = word.toList) :=
    hasWord_of_identifier (List.all_eq_true.mp (identifier piece member))
  constructor
  · rintro ⟨piece, member, has⟩
    rw [same piece member, decide_eq_true_eq] at has
    exact has ▸ member
  · intro member
    exact ⟨_, member, by simp [same _ member]⟩

/-! ### Clauses -/

/-- A clause that declares an option. -/
inductive Clause
  | language (name : Text)
  | volatility (promise : Volatility)
  | strict
  | calledOnNull
  | returnsNull
  | leakproof
  | notLeakproof
  | definer
  | invoker
  | cost (number : Text)
  | rows (number : Text)
  | window
  | parallel (mode : Parallelism)
  deriving DecidableEq, Repr

/-- Groups of clauses that exclude each other. -/
inductive Group
  | language
  | volatility
  | nullInput
  | leakproof
  | security
  | cost
  | rows
  | window
  | parallel
  deriving DecidableEq, Repr

/-- Digits, with a fraction or without one. -/
inductive IsNumber : Text → Prop
  | whole {digits : Text} (nonempty : digits ≠ []) (decimal : digits.all Char.isDigit = true) :
      IsNumber digits
  | fraction {digits more : Text} (nonempty : digits ≠ [])
      (decimal : digits.all Char.isDigit = true) (follows : more ≠ [])
      (decimals : more.all Char.isDigit = true) : IsNumber (digits ++ '.' :: more)

/-- An identifier that no other option keyword can be mistaken for. -/
structure IsLanguageName (name : Text) : Prop where
  nonempty : name ≠ []
  identifier : name.all isIdentifierChar = true
  free : ∀ word ∈ terminators, word ≠ "__END__" → name.asciiUpper ≠ word.toList
  notNot : ¬ "NOT".toList <:+ name.asciiUpper

namespace Clause

/-- The group of a clause. -/
def group : Clause → Group
  | language _ => .language
  | volatility _ => .volatility
  | strict | calledOnNull | returnsNull => .nullInput
  | leakproof | notLeakproof => .leakproof
  | definer | invoker => .security
  | cost _ => .cost
  | rows _ => .rows
  | window => .window
  | parallel _ => .parallel

/-- The keywords of a clause in upper case. -/
def keywords : Clause → List Text
  | language _ => ["LANGUAGE".toList]
  | volatility promise => [promise.text]
  | strict => ["STRICT".toList]
  | calledOnNull => ["CALLED".toList, "ON".toList, "NULL".toList, "INPUT".toList]
  | returnsNull => ["RETURNS".toList, "NULL".toList, "ON".toList, "NULL".toList, "INPUT".toList]
  | leakproof => ["LEAKPROOF".toList]
  | notLeakproof => ["NOT".toList, "LEAKPROOF".toList]
  | definer => ["SECURITY".toList, "DEFINER".toList]
  | invoker => ["SECURITY".toList, "INVOKER".toList]
  | cost _ => ["COST".toList]
  | rows _ => ["ROWS".toList]
  | window => ["WINDOW".toList]
  | parallel mode => ["PARALLEL".toList, mode.text]

/-- The value after the keywords. -/
def value? : Clause → Option Text
  | language name => some name
  | cost number => some number
  | rows number => some number
  | _ => none

/-- The values of a clause can be written. -/
def WellFormed : Clause → Prop
  | language name => IsLanguageName name
  | cost number => IsNumber number
  | rows number => IsNumber number
  | _ => True

/-- The words of a clause in upper case. -/
def words (clause : Clause) : List Text :=
  clause.keywords ++ (clause.value?.map asciiUpper).toList

/-- The keywords of a clause are words. -/
theorem keywords_solid (clause : Clause) :
    clause.keywords ≠ [] ∧ ∀ keyword ∈ clause.keywords,
      keyword ≠ [] ∧ keyword.all isIdentifierChar = true := by
  cases clause with
  | volatility promise => cases promise <;> decide
  | parallel mode => cases mode <;> decide
  | _ => all_goals (simp only [keywords]; decide)

end Clause

theorem Clause.words_ne_nil (clause : Clause) : clause.words ≠ [] :=
  List.append_ne_nil_of_left_ne_nil clause.keywords_solid.1 _

/-- The keyword of a body is no keyword of a clause. -/
theorem Clause.as_not_mem_keywords (clause : Clause) : "AS".toList ∉ clause.keywords := by
  cases clause with
  | volatility promise => cases promise <;> decide
  | parallel mode => cases mode <;> decide
  | _ => all_goals (simp only [keywords]; decide)

/-- The keywords that tell the group of a clause. -/
def heads : List (String × Group) :=
  [("LANGUAGE", .language), ("LEAKPROOF", .leakproof), ("COST", .cost), ("ROWS", .rows),
    ("PARALLEL", .parallel)]

theorem Clause.mem_keywords_iff_group (clause : Clause) :
    ∀ head ∈ heads, head.1.toList ∈ clause.keywords ↔ clause.group = head.2 := by
  cases clause with
  | volatility promise => cases promise <;> decide
  | parallel mode => cases mode <;> decide
  | _ => all_goals (simp only [keywords, group]; decide)

/-- The keywords that tell the clause. -/
def flags : List (String × Clause) :=
  [("IMMUTABLE", .volatility .immutable), ("STABLE", .volatility .stable), ("STRICT", .strict),
    ("WINDOW", .window)]

theorem Clause.mem_keywords_iff_eq (clause : Clause) :
    ∀ flag ∈ flags, flag.1.toList ∈ clause.keywords ↔ clause = flag.2 := by
  have others : ∀ flag ∈ flags, ∀ keyword ∈ ["LANGUAGE".toList, "COST".toList, "ROWS".toList],
      flag.1.toList ∉ [keyword] := by decide
  have own : ∀ flag ∈ flags, flag.1.toList ∈ flag.2.keywords := by decide
  refine fun flag isFlag => ⟨?_, fun same => same ▸ own flag isFlag⟩
  revert flag
  cases clause with
  | volatility promise => cases promise <;> decide
  | parallel mode => cases mode <;> decide
  | language | cost | rows =>
      all_goals exact fun flag isFlag inside => absurd inside (others flag isFlag _ (by decide))
  | _ => all_goals decide

/-! ### Values -/

/-- A value that no keyword can be mistaken for. -/
structure IsValue (value : Text) : Prop where
  nonempty : value ≠ []
  typed : ∀ c ∈ value, isTypeChar c = true
  free : ∀ word ∈ terminators, word ≠ "__END__" → hasWord word value.asciiUpper = false
  notNot : ¬ "NOT".toList <:+ value.asciiUpper

theorem IsLanguageName.isValue {name : Text} (isName : IsLanguageName name) : IsValue name where
  nonempty := isName.nonempty
  typed := fun c member =>
    isTypeChar_of_isIdentifierChar (List.all_eq_true.mp isName.identifier c member)
  free := by
    intro word member regular
    have identifier : ∀ c ∈ name.asciiUpper, isIdentifierChar c = true := by
      intro c inside
      obtain ⟨d, within, rfl⟩ := List.mem_map.mp inside
      have here := List.all_eq_true.mp isName.identifier d within
      have piece := isPieceChar_of_isTypeChar (isTypeChar_of_isIdentifierChar here)
      rw [(upper_of_isPieceChar piece).2.2.2, here]
    rw [hasWord_of_identifier identifier, decide_eq_false_iff_not]
    exact isName.free word member regular
  notNot := isName.notNot

/-- A digit has no upper case and is no letter. -/
theorem toUpper_of_isDigit {c : Char} (digit : c.isDigit = true) :
    c.toUpper = c ∧ c.isAlpha = false := by
  have identifier : isIdentifierChar c = true := by
    simp [isIdentifierChar, Char.isAlphanum, digit]
  have checked : ∀ n < 128, (Char.ofNat n).isDigit = true →
      (Char.ofNat n).toUpper = Char.ofNat n ∧ (Char.ofNat n).isAlpha = false := by decide
  have here := checked c.toNat (toNat_lt_of_isIdentifierChar identifier)
  rw [Char.ofNat_toNat] at here
  exact here digit

/-- A number is made of digits and points. -/
theorem IsNumber.chars {number : Text} (isNumber : IsNumber number) :
    ∀ c ∈ number, c.isDigit = true ∨ c = '.' := by
  intro c member
  cases isNumber with
  | whole _ decimal => exact Or.inl (List.all_eq_true.mp decimal c member)
  | fraction _ decimal _ decimals =>
      rcases List.mem_append.mp member with inDigits | inRest
      · exact Or.inl (List.all_eq_true.mp decimal c inDigits)
      · rcases List.mem_cons.mp inRest with rfl | inMore
        · exact Or.inr rfl
        · exact Or.inl (List.all_eq_true.mp decimals c inMore)

/-- There is no letter in a number. -/
theorem IsNumber.isAlpha_eq_false {number : Text} (isNumber : IsNumber number) :
    ∀ c ∈ number.asciiUpper, c.isAlpha = false := by
  intro c member
  obtain ⟨d, inside, rfl⟩ := List.mem_map.mp member
  rcases isNumber.chars d inside with digit | rfl
  · rw [(toUpper_of_isDigit digit).1]
    exact (toUpper_of_isDigit digit).2
  · decide

theorem IsNumber.isValue {number : Text} (isNumber : IsNumber number) : IsValue number where
  nonempty := by cases isNumber <;> simp_all
  typed := by
    intro c member
    rcases isNumber.chars c member with digit | rfl
    · simp [isTypeChar, isIdentifierChar, Char.isAlphanum, digit]
    · decide
  free := by
    intro word member _
    have letters : ∀ word ∈ terminators, word.toList.any Char.isAlpha = true := by decide
    obtain ⟨c, inside, letter⟩ := List.any_eq_true.mp (letters word member)
    rw [← Bool.not_eq_true, hasWord_eq_true_iff]
    rintro ⟨front, back, whole, _⟩
    have none := isNumber.isAlpha_eq_false c (by simp [whole, inside])
    rw [letter] at none
    cases none
  notNot := by
    rintro ⟨front, whole⟩
    have none := isNumber.isAlpha_eq_false 'T' (by simp [← whole])
    exact absurd none (by decide)

theorem Clause.WellFormed.isValue {clause : Clause} (wellFormed : clause.WellFormed) {value : Text}
    (isValue : clause.value? = some value) : IsValue value := by
  cases clause with
  | language name => cases isValue; exact IsLanguageName.isValue wellFormed
  | cost number => cases isValue; exact IsNumber.isValue wellFormed
  | rows number => cases isValue; exact IsNumber.isValue wellFormed
  | _ => cases isValue

/-! ### Clauses as they are written -/

/-- A clause with its keywords in any letter case and its value as it is. -/
structure Written where
  clause : Clause
  spelled : List Text
  spells : spelled.map asciiUpper = clause.keywords
  wellFormed : clause.WellFormed

namespace Written

/-- The tokens of a clause. -/
def tokens (written : Written) : List Text :=
  written.spelled ++ written.clause.value?.toList

variable (written : Written)

theorem tokens_ne_nil : written.tokens ≠ [] := by
  refine List.append_ne_nil_of_left_ne_nil (fun none => written.clause.keywords_solid.1 ?_) _
  rw [← written.spells, none]
  rfl

/-- In upper case, the tokens of a written clause are its words. -/
theorem map_tokens : written.tokens.map asciiUpper = written.clause.words := by
  rw [tokens, List.map_append, written.spells, Clause.words]
  cases written.clause.value? <;> rfl

/-- The tokens of a written clause are made of type characters. -/
theorem solid : ∀ token ∈ written.tokens, token ≠ [] ∧ ∀ c ∈ token, isTypeChar c = true := by
  intro token member
  rcases List.mem_append.mp member with keyword | value
  · have inside : token.asciiUpper ∈ written.clause.keywords :=
      written.spells ▸ List.mem_map_of_mem keyword
    obtain ⟨nonempty, identifier⟩ := written.clause.keywords_solid.2 _ inside
    refine ⟨fun none => nonempty (by rw [none]; rfl), fun c within => ?_⟩
    exact isTypeChar_of_isIdentifierChar (isIdentifierChar_of_asciiUpper identifier c within)
  · have isValue := written.wellFormed.isValue (Option.mem_toList.mp value)
    exact ⟨isValue.nonempty, isValue.typed⟩

end Written

/-! ### The pieces of a segment -/

/-- The end of the statement, if it comes right after a token. -/
def closing (last : Bool) : Text :=
  if last then [';'] else []

/-- What stands in the options of a statement: its clauses, the keyword of its body and its end. The
end is a part of its own, or it belongs to the last clause. -/
inductive Part
  | clause (written : Written) (last : Bool)
  | body (keyword : Text) (upper : keyword.asciiUpper = "AS".toList)
  | finish

/-- The words that end a type hold no semicolon. -/
theorem terminators_solid : ∀ word ∈ terminators, word.toList ≠ [] ∧ ';' ∉ word.toList := by
  decide

/-- The ending of the last piece hides no word. -/
theorem any_hasWord_close {word : String} (nonempty : word.toList ≠ []) (free : ';' ∉ word.toList)
    (last : Bool) (tokens : List Text) :
    (close (closing last) tokens).any (hasWord word) = tokens.any (hasWord word) := by
  induction tokens with
  | nil => rfl
  | cons token tokens ih =>
      cases tokens with
      | nil => cases last <;> simp [close, closing, hasWord_append_semicolon nonempty free]
      | cons next tokens => exact congrArg (hasWord word token || ·) ih

namespace Part

/-- The pieces that a part is written as. -/
def pieces : Part → List Text
  | clause written last => close (closing last) written.tokens
  | body keyword _ => [keyword]
  | finish => [[';']]

/-- The clause of a part, if it is one. -/
def clause? : Part → Option Clause
  | clause written _ => some written.clause
  | _ => none

/-- The pieces in upper case. -/
def upper : Part → List Text
  | clause written last => close (closing last) written.clause.words
  | body .. => ["AS".toList]
  | finish => [[';']]

/-- The keywords in upper case. -/
def keywords : Part → List Text
  | clause written _ => written.clause.keywords
  | body .. => ["AS".toList]
  | finish => []

/-- In upper case, the pieces of a part are its words. -/
theorem map_pieces (part : Part) : part.pieces.map asciiUpper = part.upper := by
  cases part with
  | clause written last =>
      have ending : (closing last).asciiUpper = closing last := by cases last <;> rfl
      rw [pieces, map_close, written.map_tokens, ending]
      rfl
  | body keyword upper => simp [pieces, Part.upper, upper]
  | finish => rfl

/-- The pieces are visible. -/
theorem solid (part : Part) :
    part.pieces ≠ [] ∧ ∀ piece ∈ part.pieces, piece ≠ [] ∧ ∀ c ∈ piece, isPieceChar c = true := by
  cases part with
  | clause written last =>
      refine ⟨close_ne_nil written.tokens_ne_nil, fun piece member => ?_⟩
      obtain ⟨token, inside, shape⟩ := exists_of_mem_close member
      obtain ⟨nonempty, typed⟩ := written.solid token inside
      have printable : ∀ c ∈ token, isPieceChar c = true :=
        fun c within => isPieceChar_of_isTypeChar (typed c within)
      rcases shape with rfl | rfl
      · exact ⟨nonempty, printable⟩
      · refine ⟨List.append_ne_nil_of_left_ne_nil nonempty _,
          List.forall_mem_append.mpr ⟨printable, ?_⟩⟩
        cases last <;> exact List.all_eq_true.mp (by decide)
  | body keyword upper =>
      have identifier : ∀ c ∈ keyword, isIdentifierChar c = true :=
        isIdentifierChar_of_asciiUpper (upper ▸ by decide)
      refine ⟨List.cons_ne_nil _ _, List.forall_mem_singleton.mpr ⟨?_, fun c member => ?_⟩⟩
      · rintro rfl
        cases upper
      · exact isPieceChar_of_isTypeChar (isTypeChar_of_isIdentifierChar (identifier c member))
  | finish => exact ⟨List.cons_ne_nil _ _, List.forall_mem_singleton.mpr
      ⟨List.cons_ne_nil _ _, List.all_eq_true.mp (by decide)⟩⟩

theorem upper_ne_nil (part : Part) : part.upper ≠ [] := by
  rw [← part.map_pieces]
  exact fun none => part.solid.1 (List.map_eq_nil_iff.mp none)

/-- The words of a part among the option keywords are its keywords. -/
theorem any_hasWord (part : Part) {word : String} (member : word ∈ terminators)
    (regular : word ≠ "__END__") :
    part.upper.any (hasWord word) = decide (word.toList ∈ part.keywords) := by
  obtain ⟨nonempty, free⟩ := terminators_solid word member
  cases part with
  | clause written last =>
      have values : (written.clause.value?.map asciiUpper).toList.any (hasWord word) = false := by
        refine List.any_eq_false.mpr fun upper inside => ?_
        obtain ⟨value, isValue, rfl⟩ := Option.map_eq_some_iff.mp (Option.mem_toList.mp inside)
        simp [(written.wellFormed.isValue isValue).free word member regular]
      rw [upper, any_hasWord_close nonempty free, Clause.words, List.any_append, values,
        Bool.or_false, any_hasWord_eq fun keyword inside =>
          (written.clause.keywords_solid.2 keyword inside).2]
      rfl
  | body keyword upper =>
      have identifier : ∀ piece ∈ ["AS".toList], piece.all isIdentifierChar = true := by decide
      exact any_hasWord_eq identifier
  | finish =>
      have none : hasWord word [] = false := by
        rw [hasWord_of_identifier (fun _ member => absurd member List.not_mem_nil)]
        simpa using nonempty.symm
      have same := hasWord_append_semicolon nonempty free []
      simp [upper, keywords, ← none, ← same]

/-- A part whose keywords do not include a word lacks it. -/
theorem lacks (part : Part) {word : String} (member : word ∈ terminators)
    (regular : word ≠ "__END__") (absent : word.toList ∉ part.keywords) :
    ∀ piece ∈ part.pieces, Lacks [word] piece := by
  intro piece inside
  refine ⟨(part.solid.2 piece inside).2, List.forall_mem_singleton.mpr ?_⟩
  have none : part.upper.any (hasWord word) = false := by
    rw [part.any_hasWord member regular, decide_eq_false_iff_not]
    exact absent
  rw [← part.map_pieces] at none
  simpa using List.any_eq_false.mp none _ (List.mem_map_of_mem inside)

end Part

/-- No token of a clause holds the keyword of the body. -/
theorem Written.hasWord_as_eq_false (written : Written) :
    ∀ token ∈ written.tokens, hasWord "AS" token.asciiUpper = false := by
  intro token member
  have pieces : (Part.clause written false).pieces = written.tokens := close_nil _
  have lacks := (Part.clause written false).lacks (by decide) (by decide)
    written.clause.as_not_mem_keywords token (pieces ▸ member)
  exact lacks.absent "AS" (by simp)

/-- The clauses of a segment. -/
def declared (parts : List Part) : List Clause :=
  parts.filterMap Part.clause?

section Parts

variable {parts : List Part}

/-- The pieces of a segment are not empty, and their characters may stand in one. -/
theorem solid_pieces : ∀ piece ∈ parts.flatMap Part.pieces,
    piece ≠ [] ∧ ∀ c ∈ piece, isPieceChar c = true := by
  intro piece member
  obtain ⟨part, _, inside⟩ := List.mem_flatMap.mp member
  exact part.solid.2 piece inside

/-- The pieces of a segment are not empty and hold no white space. -/
theorem visible_pieces : ∀ piece ∈ parts.flatMap Part.pieces,
    piece ≠ [] ∧ ∀ c ∈ piece, isBlank c = false := by
  intro piece member
  obtain ⟨nonempty, printable⟩ := solid_pieces piece member
  exact ⟨nonempty, fun c inside => isBlank_of_isPieceChar (printable c inside)⟩

end Parts

/-- The pieces of parts that are clauses are the tokens of the clauses. -/
theorem flatMap_pieces (clauses : List Written) :
    (clauses.map (Part.clause · false)).flatMap Part.pieces = clauses.flatMap Written.tokens := by
  rw [List.flatMap_map]
  exact congrArg clauses.flatMap (funext fun written => close_nil _)

/-- The tokens of clauses are not empty and hold no white space. -/
theorem visible_tokens (clauses : List Written) : ∀ token ∈ clauses.flatMap Written.tokens,
    token ≠ [] ∧ ∀ c ∈ token, isBlank c = false :=
  flatMap_pieces clauses ▸ visible_pieces

/-- The clauses of parts that are clauses are those clauses. -/
theorem declared_clauses (clauses : List Written) :
    declared (clauses.map (Part.clause · false)) = clauses.map Written.clause := by
  rw [declared, List.filterMap_map]
  exact congrFun List.filterMap_eq_map clauses

end Options

namespace Statement

open Text Options

/-- The keyword of the body, the clauses after the body and the end of the statement. -/
theorem exists_tail {lead : List Text} {rest : List Written}
    (statement : Statement lead (rest.flatMap Written.tokens)) :
    ∃ others, Spread ((.body statement.keyword statement.upper :: others).flatMap Part.pieces)
        statement.tail ∧
      declared (.body statement.keyword statement.upper :: others) = rest.map Written.clause := by
  obtain ⟨ended, spread, rfl | ⟨some, rfl⟩⟩ := statement.spread_tail
  · refine ⟨rest.map (Part.clause · false) ++ [.finish], ?_, ?_⟩
    · rw [List.flatMap_cons, List.flatMap_append, flatMap_pieces]
      exact spread
    · rw [declared, List.filterMap_cons, List.filterMap_append, ← declared_clauses rest]
      simp [declared, Part.clause?]
  · obtain ⟨init, last, rfl⟩ : ∃ init last, rest = init ++ [last] := by
      rcases List.eq_nil_or_concat rest with rfl | ⟨init, last, shape⟩
      · exact absurd rfl some
      · exact ⟨init, last, shape.trans List.concat_eq_append⟩
    have closed : (init.map (Part.clause · false) ++ [Part.clause last true]).flatMap Part.pieces =
        Text.close [';'] ((init ++ [last]).flatMap Written.tokens) := by
      rw [List.flatMap_append, flatMap_pieces, List.flatMap_append, List.flatMap_singleton,
        List.flatMap_singleton, close_append _ _ last.tokens_ne_nil]
      rfl
    refine ⟨init.map (Part.clause · false) ++ [.clause last true], ?_, ?_⟩
    · rw [List.flatMap_cons, closed]
      exact spread
    · rw [declared, List.filterMap_cons, List.filterMap_append, List.map_append,
        ← declared_clauses init]
      simp [declared, Part.clause?]

end Statement

end RoutineScripts
