import Mathlib.Data.List.Nodup
import RoutineScripts.Proofs.Routine.Declared

/-!
# Clauses in any order

Clauses of one group exclude each other. With at most one clause of each group, the first clause of
a kind is the only one, so the order of the clauses makes no difference to what they declare
(`Options.ofText_of_clauses`).

The main statement is `Definition.ofText?_of_clauses`: the clauses may stand on either side of the
body, with any white space between their tokens.
-/

namespace RoutineScripts

namespace Options

open Text Recogniser

/-! ### Clauses of different groups -/

section Distinct

variable {clauses ordered : List Clause} (distinct : (clauses.map Clause.group).Nodup)

include distinct in
/-- Where the groups are distinct, the first value for a group is the only one. -/
theorem findSome?_eq_some_iff_of_distinct {α : Type} {project : Clause → Option α} {group : Group}
    (grouped : ∀ clause found, project clause = some found → clause.group = group) {found : α} :
    clauses.findSome? project = some found ↔ ∃ clause ∈ clauses, project clause = some found := by
  constructor
  · intro first
    exact List.exists_of_findSome?_eq_some first
  · rintro ⟨clause, member, here⟩
    have some : (clauses.findSome? project).isSome = true :=
      List.findSome?_isSome_iff.mpr ⟨clause, member, by simp [here]⟩
    obtain ⟨other, first⟩ := Option.isSome_iff_exists.mp some
    obtain ⟨same, memberToo, there⟩ := List.exists_of_findSome?_eq_some first
    have groups := (grouped _ _ here).trans (grouped _ _ there).symm
    obtain rfl := List.inj_on_of_nodup_map distinct member memberToo groups
    rw [first, ← there, here]

include distinct in
/-- Among clauses of different groups the order makes no difference to the first one of a kind. -/
theorem findSome?_of_perm (perm : ordered.Perm clauses) {α : Type} {project : Clause → Option α}
    {group : Group} (grouped : ∀ clause found, project clause = some found → clause.group = group) :
    ordered.findSome? project = clauses.findSome? project := by
  have distinctToo : (ordered.map Clause.group).Nodup :=
    (perm.map Clause.group).nodup_iff.mpr distinct
  refine Option.ext fun found => ?_
  rw [findSome?_eq_some_iff_of_distinct distinctToo grouped,
    findSome?_eq_some_iff_of_distinct distinct grouped]
  simp only [perm.mem_iff]

include distinct in
/-- The flags for volatility tell the first clause of that group. -/
theorem volatility_eq :
    (if clauses.contains (.volatility .immutable) then Volatility.immutable
      else if clauses.contains (.volatility .stable) then .stable else .volatile) =
      (clauses.findSome? Clause.volatility?).getD .volatile := by
  have declares (promise : Volatility) : clauses.contains (.volatility promise) =
      decide (clauses.findSome? Clause.volatility? = some promise) := by
    rw [Bool.eq_iff_iff, List.contains_iff_mem, decide_eq_true_eq,
      @findSome?_eq_some_iff_of_distinct _ distinct _ _ .volatility (by rintro (_ | _) _ ⟨⟩; rfl)]
    constructor
    · exact fun member => ⟨_, member, rfl⟩
    · rintro ⟨_ | _, member, ⟨⟩⟩
      exact member
  rw [declares, declares]
  cases clauses.findSome? Clause.volatility? with
  | none => rfl
  | some promise => cases promise <;> rfl

include distinct in
/-- The words of that group tell whether its clause is declared. -/
theorem leakproof_eq : (clauses.any (·.group = .leakproof) && !clauses.contains .notLeakproof) =
    clauses.contains .leakproof := by
  rw [Bool.eq_iff_iff, Bool.and_eq_true, Bool.not_eq_true', List.any_eq_true,
    List.contains_iff_mem]
  constructor
  · rintro ⟨⟨clause, member, group⟩, absent⟩
    cases clause with
    | leakproof => exact member
    | notLeakproof => simp [member] at absent
    | _ => all_goals cases group
  · intro member
    refine ⟨⟨.leakproof, member, rfl⟩, ?_⟩
    rw [← Bool.not_eq_true, List.contains_iff_mem]
    exact fun memberToo => nomatch List.inj_on_of_nodup_map distinct member memberToo rfl

/-- The phrases of that group tell whether one of its clauses is declared. -/
theorem nullInput_eq : (clauses.contains .strict || clauses.contains .returnsNull ||
    clauses.contains .calledOnNull) = clauses.any Clause.isNullInput := by
  rw [Bool.eq_iff_iff, Bool.or_eq_true, Bool.or_eq_true, List.any_eq_true,
    List.contains_iff_mem, List.contains_iff_mem, List.contains_iff_mem]
  constructor
  · rintro ((member | member) | member) <;> exact ⟨_, member, rfl⟩
  · rintro ⟨clause, member, isNullInput⟩
    cases clause with
    | strict => exact Or.inl (Or.inl member)
    | returnsNull => exact Or.inl (Or.inr member)
    | calledOnNull => exact Or.inr member
    | _ => all_goals cases isNullInput

end Distinct

/-- The clauses of a segment are well formed. -/
theorem wellFormed_declared {parts : List Part} {clause : Clause}
    (member : clause ∈ declared parts) : clause.WellFormed := by
  obtain ⟨part, _, isClause⟩ := List.mem_filterMap.mp member
  cases part with
  | clause written last =>
      obtain rfl := Option.some.inj isClause
      exact written.wellFormed
  | body | finish => all_goals cases isClause

/-- The language of a squeezed segment is that of its first language clause. -/
theorem language?_of_squeeze {segment : Text} {parts : List Part}
    (squeezed : squeeze segment = spaced (parts.flatMap Part.pieces)) :
    Options.clause? "LANGUAGE" languageName? segment =
      (declared parts).findSome? Clause.language? := by
  have found := @language?_declared parts
  rw [← squeezed, clause?_squeeze (isSolid_of_mem_terminators (by decide)) languageName?_squeeze]
    at found
  rw [← found]
  cases read : Options.clause? "LANGUAGE" languageName? segment with
  | none => rfl
  | some name =>
      rw [read] at found
      obtain ⟨clause, member, isName⟩ := List.exists_of_findSome?_eq_some found.symm
      have visible : ∀ c ∈ squeeze name, isBlank c = false := by
        cases clause with
        | language given =>
            obtain rfl := Option.some.inj isName
            have wellFormed : IsLanguageName (squeeze name) := wellFormed_declared member
            exact fun c inside =>
              isBlank_of_isPieceChar (isPieceChar_of_isTypeChar (wellFormed.isValue.typed c inside))
        | _ => all_goals cases isName
      have bare : name.any isBlank = false := by
        rw [← any_isBlank_squeeze]
        simpa using visible
      rw [Option.map_some, squeeze_of_visible (by simpa using bare)]

/-- The options of a segment with clauses of different groups are those that the clauses declare, in
whatever order they stand. -/
theorem ofText_of_clauses {segment : Text} {parts : List Part} {clauses : List Clause}
    (plain : ∀ c ∈ segment, c ∉ ['-', '/', '$', '\'', '"'])
    (squeezed : squeeze segment = spaced (parts.flatMap Part.pieces)) (nonempty : parts ≠ [])
    (distinct : (clauses.map Clause.group).Nodup) (perm : (declared parts).Perm clauses) :
    ofText segment =
      { returns := returnsIn segment
        language := Language.resolve (clauses.findSome? Clause.language?)
        volatility := (clauses.findSome? Clause.volatility?).getD .volatile
        securityDefiner := clauses.contains .definer
        leakproof := clauses.contains .leakproof
        strict := clauses.any Clause.isNullInput
        cost := clauses.findSome? Clause.cost?
        rows := clauses.findSome? Clause.rows?
        window := clauses.contains .window
        parallel := (clauses.findSome? Clause.parallel?).getD .serial } := by
  have flags : flagText segment = spaced (upperPieces parts) := by
    rw [← flagText_squeeze, squeezed, flagText_parts nonempty]
  have language : languageIn segment =
      Language.resolve (clauses.findSome? Clause.language?) := by
    rw [languageIn, language?_of_squeeze squeezed]
    exact congrArg Language.resolve (findSome?_of_perm distinct perm (by rintro (_ | _) _ ⟨⟩; rfl))
  have cost : numberIn "COST" segment = clauses.findSome? Clause.cost? := by
    rw [← numberIn_squeeze (isSolid_of_mem_terminators (by decide)), squeezed, cost_declared]
    exact findSome?_of_perm distinct perm (by rintro (_ | _) _ ⟨⟩; rfl)
  have rows : numberIn "ROWS" segment = clauses.findSome? Clause.rows? := by
    rw [← numberIn_squeeze (isSolid_of_mem_terminators (by decide)), squeezed, rows_declared]
    exact findSome?_of_perm distinct perm (by rintro (_ | _) _ ⟨⟩; rfl)
  have parallel : parallelIn segment = (clauses.findSome? Clause.parallel?).getD .serial := by
    rw [← parallelIn_squeeze, squeezed, parallel_declared,
      findSome?_of_perm distinct perm (by rintro (_ | _) _ ⟨⟩; rfl)]
  have flag (word : String) (clause : Clause) (isFlag : (word, clause) ∈ Options.flags) :
      hasWord word (spaced (upperPieces parts)) = clauses.contains clause :=
    (hasFlag_declared (word, clause) isFlag).trans perm.contains_eq
  have phrase (text : String) (first second : Text) (clause : Clause)
      (isPhrase : ⟨text, first, second, clause⟩ ∈ phrases) :
      hasPhrase text (spaced (upperPieces parts)) = clauses.contains clause :=
    (hasPhrase_declared ⟨text, first, second, clause⟩ isPhrase).trans perm.contains_eq
  have volatility : volatilityIn (spaced (upperPieces parts)) =
      (clauses.findSome? Clause.volatility?).getD .volatile := by
    rw [volatilityIn, flag "IMMUTABLE" (.volatility .immutable) (by simp [Options.flags]),
      flag "STABLE" (.volatility .stable) (by simp [Options.flags]), volatility_eq distinct]
  have leakproof : (hasWord "LEAKPROOF" (spaced (upperPieces parts)) &&
      !hasPhrase "NOT LEAKPROOF" (spaced (upperPieces parts))) = clauses.contains .leakproof := by
    rw [leakproof_declared, perm.any_eq, phrase _ "NOT".toList "LEAKPROOF".toList .notLeakproof
      (by simp [phrases]), leakproof_eq distinct]
  have strict : (hasWord "STRICT" (spaced (upperPieces parts)) ||
      hasPhrase "RETURNS NULL ON NULL INPUT" (spaced (upperPieces parts)) ||
      hasPhrase "CALLED ON NULL INPUT" (spaced (upperPieces parts))) =
        clauses.any Clause.isNullInput := by
    rw [flag "STRICT" .strict (by simp [Options.flags]),
      phrase _ "RETURNS".toList "NULL".toList .returnsNull (by simp [phrases]),
      phrase _ "CALLED".toList "ON".toList .calledOnNull (by simp [phrases]), nullInput_eq]
  have definer := phrase "SECURITY DEFINER" "SECURITY".toList "DEFINER".toList .definer
    (by simp [phrases])
  have window := flag "WINDOW" .window (by simp [Options.flags])
  simp only [ofText, maskComments_of_plain plain, flags, language, cost, rows, parallel,
    volatility, leakproof, strict, definer, window]

end Options

/-! ### Clauses in a statement -/

namespace Statement

open Text Options

variable (first rest : List Written)

/-- The tokens of clauses can be laid out. -/
theorem plain_clauses : Plain (first.flatMap Written.tokens) (rest.flatMap Written.tokens) where
  typed := by
    intro token member
    rw [← List.flatMap_append] at member
    obtain ⟨written, _, inside⟩ := List.mem_flatMap.mp member
    exact (written.solid token inside).2
  lacks := by
    intro token member
    obtain ⟨written, _, inside⟩ := List.mem_flatMap.mp member
    exact written.hasWord_as_eq_false token inside

variable {first rest}

/-- Up to white space, the options of a statement are its clauses and the keyword of its body. -/
theorem exists_parts
    (statement : Statement (first.flatMap Written.tokens) (rest.flatMap Written.tokens)) :
    ∃ parts, squeeze statement.script.optionText = spaced (parts.flatMap Part.pieces) ∧
      parts ≠ [] ∧ declared parts = (first ++ rest).map Written.clause := by
  obtain ⟨others, spread, clauses⟩ := statement.exists_tail
  let front := first.map (Part.clause · false)
  let back := Part.body statement.keyword statement.upper :: others
  have whole : Spread ((front ++ back).flatMap Part.pieces) statement.script.optionText := by
    rw [List.flatMap_append, flatMap_pieces, statement.optionText_eq]
    exact statement.leads.append spread
  refine ⟨front ++ back, whole.squeeze_eq visible_pieces, by simp [back], ?_⟩
  rw [List.map_append, ← clauses, ← declared_clauses first]
  exact List.filterMap_append

end Statement

namespace Definition

open Options Text

/-- **Clauses in any order.** A statement with clauses of different groups declares what the clauses
say, in whatever order they stand, on whichever side of the body, in any letter case and with any
white space between them. What no clause says has its default. -/
theorem ofText?_of_clauses {clauses : List Clause} {first rest : List Written}
    (distinct : (clauses.map Clause.group).Nodup)
    (permuted : ((first ++ rest).map Written.clause).Perm clauses)
    (statement : Statement (first.flatMap Written.tokens) (rest.flatMap Written.tokens)) :
    ∃ definition, Definition.ofText? statement.text = some definition ∧
      definition.language = Language.resolve (clauses.findSome? Clause.language?) ∧
      definition.securityDefiner = clauses.contains .definer ∧
      definition.attributes = .function
        { volatility := (clauses.findSome? Clause.volatility?).getD .volatile
          leakproof := clauses.contains .leakproof
          strict := clauses.any Clause.isNullInput
          cost := clauses.findSome? Clause.cost?
          rows := clauses.findSome? Clause.rows?
          window := clauses.contains .window
          parallel := (clauses.findSome? Clause.parallel?).getD .serial } := by
  obtain ⟨parts, squeezed, nonempty, declared⟩ := statement.exists_parts
  have options := ofText_of_clauses
    (Statement.plain_optionText (Statement.plain_clauses first rest)) squeezed nonempty distinct
    (declared ▸ permuted)
  refine ⟨Definition.ofScript statement.script, ?_, ?_, ?_, ?_⟩
  · rw [Definition.ofText?, Statement.ofText?_text (Statement.plain_clauses first rest)]
    rfl
  · rw [Definition.ofScript, options]
  · rw [Definition.ofScript, options]
  · rw [Definition.ofScript, options]
    rfl

/-- Clauses before a body, of which some hold words of others. -/
def scatteredFirst : List Written :=
  [⟨.rows "1.5".toList, ["Rows".toList], by decide,
      @IsNumber.fraction "1".toList "5".toList (by decide) (by decide) (by decide) (by decide)⟩,
    ⟨.notLeakproof, ["not".toList, "LEAKPROOF".toList], by decide, trivial⟩,
    ⟨.returnsNull, ["RETURNS".toList, "null".toList, "On".toList, "NULL".toList, "input".toList],
      by decide, trivial⟩,
    ⟨.window, ["window".toList], by decide, trivial⟩]

/-- Clauses after it. -/
def scatteredRest : List Written :=
  [⟨.parallel .restricted, ["Parallel".toList, "RESTRICTED".toList], by decide, trivial⟩,
    ⟨.definer, ["SECURITY".toList, "Definer".toList], by decide, trivial⟩,
    ⟨.language "PLpgSQL".toList, ["language".toList], by decide,
      ⟨by decide, by decide, by decide, by decide⟩⟩,
    ⟨.cost "100".toList, ["COST".toList], by decide, .whole (by decide) (by decide)⟩,
    ⟨.volatility .stable, ["Stable".toList], by decide, trivial⟩]

/-- A statement with clauses on both sides of its body. -/
def scattered : Statement (scatteredFirst.flatMap Written.tokens)
    (scatteredRest.flatMap Written.tokens) where
  create := "create".toList
  gap := "\t".toList
  function := "FUNCTION".toList
  space := "\n".toList
  before := spaced (scatteredFirst.flatMap Written.tokens)
  keywordGap := "\r\n".toList
  keyword := "As".toList
  bodyGap := "  ".toList
  after := spaced (scatteredRest.flatMap Written.tokens)
  close := []
  created := by decide
  isGap := by decide
  functional := by decide
  isSpace := by decide
  leads := Spread.spaced _
  isKeywordGap := by decide
  upper := by decide
  isBodyGap := by decide
  trails := Spread.spaced _
  closes := List.forall_mem_nil _

/-- One clause of each group, with the groups in another order than the text has them. -/
def scatteredClauses : List Clause :=
  [.language "PLpgSQL".toList, .volatility .stable, .returnsNull, .notLeakproof, .definer,
    .cost "100".toList, .rows "1.5".toList, .window, .parallel .restricted]

/-- Clauses in any order and in any letter case are read. -/
theorem ofText?_scattered :
    (scatteredClauses.map Clause.group).Nodup ∧
      ((scatteredFirst ++ scatteredRest).map Written.clause).Perm scatteredClauses ∧
      ∃ definition, Definition.ofText? scattered.text = some definition ∧
        definition.language = .plpgsql ∧
        definition.securityDefiner = true ∧
        definition.attributes = .function
          { volatility := .stable
            leakproof := false
            strict := true
            cost := some "100".toList
            rows := some "1.5".toList
            window := true
            parallel := .restricted } := by
  have distinct : (scatteredClauses.map Clause.group).Nodup := by decide
  have permuted : ((scatteredFirst ++ scatteredRest).map Written.clause).Perm scatteredClauses := by
    decide
  refine ⟨distinct, permuted, ?_⟩
  obtain ⟨definition, read, language, definer, attributes⟩ :=
    ofText?_of_clauses distinct permuted scattered
  exact ⟨definition, read, language.trans (by decide), definer.trans (by decide),
    attributes.trans (by decide)⟩

end Definition

end RoutineScripts
