import RoutineScripts.Proofs.Lexical.Balance
import RoutineScripts.Proofs.Lexical.Refinement
import RoutineScripts.Proofs.Routine.Division

/-!
# Literals among the options

Masking the comments of the text around a body leaves its literals as they are
(`Text.maskComments_literal`). No clause and no flag stands across a quote, so the text divides at
the two quotes of a literal into three parts, and each part says what it says on its own
(`Options.Reading.of_append`); only a name that is opened by a double quote goes on past the end of
a part. So what a literal holds counts as option text, after the text in front of the literal and
before the text behind it (`Options.untyped_ofText_literal`), and two literals can be exchanged
exactly when they say the same there (`Options.ofText_literal_exchange`).

The type that a routine returns is left out of this: it is not read up to a quote but up to the next
option keyword.
-/

namespace RoutineScripts

namespace ScanState

open Text

/-- A text that ends in plain mode is scanned in front of a quote as on its own, up to glyphs that
masking does not tell apart. The quote leads into a literal: it opens one, or it pairs with the
quote before it, which then ends none. -/
theorem after_append_quote {state : ScanState} (proper : state.mode.Proper) {front : Text}
    (closed : (state.after front []).IsPlain) (back : Text) :
    (∃ last, state.after (front ++ ['\'']) back = ⟨last, .singleQuoted, 0⟩) ∧
      (state.glyphs (front ++ ['\'']) back).flatMap maskGlyph =
        (state.glyphs front []).flatMap maskGlyph ++ ['\''] := by
  induction front generalizing state with
  | nil =>
      obtain ⟨before, mode, pending⟩ := state
      obtain ⟨rfl, rfl⟩ : mode = .normal ∧ pending = 0 := closed
      exact ⟨⟨.normal, rfl⟩, rfl⟩
  | cons c front ih =>
      by_cases pair : state.pending = 0 ∧ state.mode = .singleQuoted ∧ c = '\'' ∧ front = []
      · obtain ⟨before, mode, pending⟩ := state
        obtain ⟨rfl, rfl, rfl, rfl⟩ := pair
        exact ⟨⟨.singleQuoted, rfl⟩, rfl⟩
      · have same : state.next c (front ++ ['\''] ++ back) = state.next c (front ++ []) ∧
            state.glyph c (front ++ ['\''] ++ back) = state.glyph c (front ++ []) := by
          obtain ⟨before, mode, pending⟩ := state
          cases pending with
          | succ pending => exact ⟨rfl, rfl⟩
          | zero =>
              have step : mode.advance c (front ++ '\'' :: back) = mode.advance c front :=
                Mode.advance_append_cons proper (by decide) (by decide)
                  (fun _ opens => pair ⟨rfl, opens⟩) back
              simp only [next, glyph, List.append_assoc, List.singleton_append, List.append_nil,
                step, and_self]
        have further : (state.next c (front ++ [])).mode.Proper := by
          simpa [after] using proper_after proper [c] front
        obtain ⟨reached, read⟩ := ih further closed
        simp only [List.cons_append, after, glyphs, same.1, same.2]
        exact ⟨reached, by rw [List.flatMap_cons, List.flatMap_cons, read, List.append_assoc]⟩

/-- Inside a literal, characters other than quotes stay in it and are not masked. -/
theorem after_unquoted (before : Mode) {content : Text} (unquoted : '\'' ∉ content) (back : Text) :
    (∃ last, ScanState.after ⟨before, .singleQuoted, 0⟩ content back = ⟨last, .singleQuoted, 0⟩) ∧
      (ScanState.glyphs ⟨before, .singleQuoted, 0⟩ content back).flatMap maskGlyph = content := by
  have stays : ∀ front c tail, content = front ++ c :: tail →
      Mode.singleQuoted.advance c (tail ++ back) = ⟨.singleQuoted, 0⟩ := by
    rintro front c tail rfl
    exact if_neg fun quote => unquoted (by simp [quote])
  obtain ⟨reached, inside⟩ := inside_of_stays stays before
  refine ⟨reached, ?_⟩
  have shown : ∀ glyph ∈ ScanState.glyphs ⟨before, .singleQuoted, 0⟩ content back,
      maskGlyph glyph = [glyph.char] := by
    intro glyph member
    obtain ⟨first, last⟩ := inside glyph member
    simp [maskGlyph, Glyph.isComment, first, last, Mode.isComment]
  rw [List.flatMap_def, List.map_congr_left shown, ← List.flatMap_def, ← List.map_eq_flatMap]
  exact ofGlyphs_glyphs _ content back

end ScanState

namespace Text

/-- The text after a literal with its comments masked. If it starts with a quote, this pairs with
the one that would end the literal. -/
def maskedAfterLiteral (text : Text) : Text :=
  (maskComments ('\'' :: '\'' :: text)).drop 2

/-- Masking goes on inside a literal that holds no quote, and keeps its content. -/
theorem maskComments_unquoted {front content : Text} (closed : front.endMode = .normal)
    (unquoted : '\'' ∉ content) (back : Text) :
    maskComments (front ++ '\'' :: (content ++ '\'' :: back)) =
      front.maskComments ++ '\'' :: (content ++
        (ScanState.scan ⟨.normal, .singleQuoted, 0⟩ ('\'' :: back)).flatMap maskGlyph) := by
  have plain : (ScanState.start.after front []).IsPlain := by
    rw [endMode_eq] at closed
    exact ⟨closed, ScanState.pending_after (Nat.zero_le _)⟩
  obtain ⟨⟨first, opened⟩, lead⟩ :=
    ScanState.after_append_quote (show ScanState.start.mode.Proper from trivial) plain
      (content ++ '\'' :: back)
  obtain ⟨⟨last, reached⟩, inside⟩ := ScanState.after_unquoted first unquoted ('\'' :: back)
  have whole : front ++ '\'' :: (content ++ '\'' :: back) =
      (front ++ ['\'']) ++ (content ++ '\'' :: back) := by simp
  have scanned : Text.scan (front ++ '\'' :: (content ++ '\'' :: back)) =
      ScanState.start.scan ((front ++ ['\'']) ++ (content ++ '\'' :: back)) := by
    rw [whole]
    rfl
  rw [maskComments_eq, scanned, ScanState.scan_append, opened, ScanState.scan_append, reached,
    ScanState.scan_of_mode last .normal, List.flatMap_append, List.flatMap_append, lead, inside,
    maskComments_eq, scan_eq_glyphs front, glyphs]
  simp

/-- **Literals are not masked.** -/
theorem maskComments_literal {front content : Text} (closed : front.endMode = .normal)
    (unquoted : '\'' ∉ content) (back : Text) :
    maskComments (front ++ '\'' :: (content ++ '\'' :: back)) =
      front.maskComments ++ '\'' :: (content ++ '\'' :: maskedAfterLiteral back) := by
  obtain ⟨others, shape⟩ : ∃ others,
      (ScanState.scan ⟨.normal, .singleQuoted, 0⟩ ('\'' :: back)).flatMap maskGlyph =
        '\'' :: others := by
    rw [ScanState.scan_cons, List.flatMap_cons]
    refine ⟨_, congrArg (· ++ _) (?_ : _ = ['\''])⟩
    simp only [ScanState.glyph, Mode.advance, if_true]
    split <;> rfl
  have empty : maskComments ('\'' :: '\'' :: back) = '\'' :: '\'' :: others := by
    have whole := maskComments_unquoted (show endMode [] = .normal from rfl)
      (show '\'' ∉ [] from List.not_mem_nil) back
    rw [shape] at whole
    exact whole
  rw [maskComments_unquoted closed unquoted, shape, maskedAfterLiteral, empty]
  rfl

end Text

namespace Options

open Text Recogniser

/-- Options without the type that is returned. -/
def untyped (options : Options) : Options :=
  { options with returns := [] }

/-- What the clauses in a part of a text say, as found. -/
structure Reading where
  language : Option Text
  immutable : Bool
  stable : Bool
  securityDefiner : Bool
  leakproof : Bool
  notLeakproof : Bool
  strict : Bool
  cost : Option Text
  rows : Option Text
  window : Bool
  parallel : Option Text
  deriving DecidableEq

namespace Reading

/-- What the clauses say that start in `part`, which `after` follows. -/
def of (part after : Text) : Reading :=
  let flags := flagText part
  { language := clause? "LANGUAGE" (fun rest => languageName? (rest ++ after)) part
    immutable := hasWord "IMMUTABLE" flags
    stable := hasWord "STABLE" flags
    securityDefiner := hasPhrase "SECURITY DEFINER" flags
    leakproof := hasWord "LEAKPROOF" flags
    notLeakproof := hasPhrase "NOT LEAKPROOF" flags
    strict := hasWord "STRICT" flags
      || hasPhrase "RETURNS NULL ON NULL INPUT" flags
      || hasPhrase "CALLED ON NULL INPUT" flags
    cost := numberIn "COST" part
    rows := numberIn "ROWS" part
    window := hasWord "WINDOW" flags
    parallel := clause? "PARALLEL" parallelWord? part }

/-- What is said first or, where that says nothing, what is said second. -/
def followedBy (first second : Reading) : Reading :=
  { language := first.language.or second.language
    immutable := first.immutable || second.immutable
    stable := first.stable || second.stable
    securityDefiner := first.securityDefiner || second.securityDefiner
    leakproof := first.leakproof || second.leakproof
    notLeakproof := first.notLeakproof || second.notLeakproof
    strict := first.strict || second.strict
    cost := first.cost.or second.cost
    rows := first.rows.or second.rows
    window := first.window || second.window
    parallel := first.parallel.or second.parallel }

/-- The options that clauses declare when they say nothing of a type. -/
def options (reading : Reading) : Options :=
  { returns := []
    language := Language.resolve reading.language
    volatility :=
      if reading.immutable then .immutable else if reading.stable then .stable else .volatile
    securityDefiner := reading.securityDefiner
    leakproof := reading.leakproof && !reading.notLeakproof
    strict := reading.strict
    cost := reading.cost
    rows := reading.rows
    window := reading.window
    parallel :=
      match reading.parallel with
      | some word =>
          if word.asciiUpper = Parallelism.safe.text then .safe
          else if word.asciiUpper = Parallelism.restricted.text then .restricted
          else .serial
      | none => .serial }

/-- What the clauses of a whole segment say are its options, except for the type. -/
theorem options_of (segment : Text) :
    (of segment.maskComments []).options = (ofText segment).untyped := by
  have name : (fun rest => languageName? (rest ++ [])) = languageName? :=
    funext fun rest => congrArg languageName? (List.append_nil rest)
  rw [of, name]
  rfl

/-- **Readings divide at a quote.** -/
theorem of_append (front back after : Text) :
    of (front ++ '\'' :: back) after =
      (of front ('\'' :: (back ++ after))).followedBy (of back after) := by
  have visible : isBlank '\'' = false := by decide
  have separates : isWordChar '\'' = false := by decide
  have word (flag : String) (absent : '\'' ∉ flag.toList) (solid : ' ' ∉ flag.toList)
      (nonempty : flag.toList ≠ []) :=
    (IsFlag.hasWord absent separates solid nonempty).flagText_append_cons visible rfl front back
  have phrase (flag : String) (absent : '\'' ∉ flag.toList)
      (starts : flag.toList.head? ≠ some ' ') (ends : flag.toList.getLast? ≠ some ' ')
      (nonempty : flag.toList ≠ []) :=
    (IsFlag.hasPhrase absent starts ends nonempty).flagText_append_cons visible rfl front back
  have number (keyword : String) (avoided : avoids '\'' keyword.toList = true) :=
    numberIn_append_cons avoided visible separates (by decide) (by decide) front back
  have parallel : clause? "PARALLEL" parallelWord? (front ++ '\'' :: back) =
      (clause? "PARALLEL" parallelWord? front).or (clause? "PARALLEL" parallelWord? back) := by
    rw [clause?_append_cons (by decide) visible separates,
      funext fun rest => parallelWord?_append_cons (by decide) separates rest back]
  have language : clause? "LANGUAGE" (fun rest => languageName? (rest ++ after))
        (front ++ '\'' :: back) =
      (clause? "LANGUAGE" (fun rest => languageName? (rest ++ '\'' :: (back ++ after))) front).or
        (clause? "LANGUAGE" (fun rest => languageName? (rest ++ after)) back) := by
    rw [clause?_append_cons (by decide) visible separates]
    simp only [List.append_assoc, List.cons_append]
  have strict (first second third other otherSecond otherThird : Bool) :
      (first || other || (second || otherSecond) || (third || otherThird)) =
        (first || second || third || (other || otherSecond || otherThird)) := by
    simp only [Bool.or_assoc, Bool.or_left_comm]
  simp only [of, followedBy, language, parallel, number "COST" (by decide),
    number "ROWS" (by decide), word "IMMUTABLE" (by decide) (by decide) (by decide),
    word "STABLE" (by decide) (by decide) (by decide),
    word "LEAKPROOF" (by decide) (by decide) (by decide),
    word "STRICT" (by decide) (by decide) (by decide),
    word "WINDOW" (by decide) (by decide) (by decide),
    phrase "SECURITY DEFINER" (by decide) (by decide) (by decide) (by decide),
    phrase "NOT LEAKPROOF" (by decide) (by decide) (by decide) (by decide),
    phrase "RETURNS NULL ON NULL INPUT" (by decide) (by decide) (by decide) (by decide),
    phrase "CALLED ON NULL INPUT" (by decide) (by decide) (by decide) (by decide), strict]

/-- What the clauses say in front of a literal, in the literal and behind it. -/
def around (front content back : Text) : Reading :=
  let rest := maskedAfterLiteral back
  (of front.maskComments ('\'' :: (content ++ '\'' :: rest))).followedBy
    ((of content ('\'' :: rest)).followedBy (of rest []))

end Reading

section Literal

variable {front content other : Text} (closed : front.endMode = .normal)
  (unquoted : '\'' ∉ content) (unquotedToo : '\'' ∉ other) (back : Text)

include closed unquoted

/-- **What a literal holds is read as options.** -/
theorem untyped_ofText_literal :
    (ofText (front ++ '\'' :: (content ++ '\'' :: back))).untyped =
      (Reading.around front content back).options := by
  rw [← Reading.options_of, maskComments_literal closed unquoted, Reading.of_append,
    Reading.of_append, List.append_nil, List.append_nil]
  rfl

include unquotedToo

/-- **Exchanging a literal.** With another literal in its place the options are the same exactly
when what the two hold says the same between the clauses in front of them and behind them. -/
theorem ofText_literal_exchange :
    (ofText (front ++ '\'' :: (content ++ '\'' :: back))).untyped =
        (ofText (front ++ '\'' :: (other ++ '\'' :: back))).untyped ↔
      (Reading.around front content back).options = (Reading.around front other back).options := by
  rw [untyped_ofText_literal closed unquoted, untyped_ofText_literal closed unquotedToo]

end Literal

/-- A setting with a value that declares nothing, whatever the value is. -/
theorem ofText_literal_exchange_setting :
    let front : Text := " SET search_path = ".toList
    let back : Text := " LANGUAGE sql STABLE".toList
    (ofText (front ++ '\'' :: ("public".toList ++ '\'' :: back))).untyped =
      (ofText (front ++ '\'' :: ("pg_temp".toList ++ '\'' :: back))).untyped := by
  intro front back
  have closed : front.endMode = .normal := by decide
  have unquoted : '\'' ∉ "public".toList ∧ '\'' ∉ "pg_temp".toList := by decide
  have same : (Reading.around front "public".toList back).options =
      (Reading.around front "pg_temp".toList back).options := by decide +kernel
  exact (ofText_literal_exchange closed unquoted.1 unquoted.2 back).mpr same

/-- A keyword that a setting has as its value is taken for an option. -/
theorem ofText_literal_keyword :
    let front : Text := " SET application_name = ".toList
    let back : Text := " LANGUAGE sql".toList
    front.endMode = .normal ∧ '\'' ∉ "IMMUTABLE".toList ∧ '\'' ∉ "worker".toList ∧
      (ofText (front ++ '\'' :: ("IMMUTABLE".toList ++ '\'' :: back))).volatility = .immutable ∧
      (ofText (front ++ '\'' :: ("worker".toList ++ '\'' :: back))).volatility = .volatile := by
  decide +kernel

end Options

end RoutineScripts
