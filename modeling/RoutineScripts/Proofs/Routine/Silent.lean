import RoutineScripts.Proofs.Routine.Characters
import RoutineScripts.Proofs.Routine.Opening
import RoutineScripts.Proofs.Routine.Quoted

/-!
# Literals that say nothing

A literal that holds none of the option words in any letter case declares nothing
(`Options.Silent`): wherever a keyword is spelled in a text, it stands in the upper-case form of the
text, in which flags are looked for (`Options.infix_flagText_of_spells`). So literals of this kind
can be exchanged (`Options.ofText_literal_of_silent`). The text in front of them must hold no double
quote, since the name of a language that is opened by one may go on into the literal.
-/

namespace RoutineScripts

/-- Collapsing white space leaves words whole. -/
theorem Text.infix_collapse {word : Text} (visible : ∀ c ∈ word, isBlank c = false)
    (front back : Text) : word <:+: (front ++ word ++ back).collapse := by
  cases word with
  | nil => exact List.nil_infix
  | cons z rest =>
      obtain ⟨here, later⟩ := List.forall_mem_cons.mp visible
      obtain ⟨lead, _, whole⟩ :=
        exists_settle_append_cons here false (front.dropWhile isBlank) (rest ++ back)
      refine ⟨settle false (front.dropWhile isBlank) ++ lead, settle false back, ?_⟩
      rw [List.append_assoc front, List.cons_append, collapse, dropWhile_append_cons here, whole,
        settle_false_append later]
      simp

namespace Options

open Text Recogniser

/-- The words that clauses and flags are told by. -/
def optionWords : List String :=
  ["LANGUAGE", "IMMUTABLE", "STABLE", "SECURITY", "LEAKPROOF", "STRICT", "NULL", "COST", "ROWS",
    "WINDOW", "PARALLEL"]

/-- The words that a value follows. -/
def valueWords : List String :=
  ["LANGUAGE", "COST", "ROWS", "PARALLEL"]

/-- They are option words, and their letters have no other upper-case forms. -/
theorem plain_of_mem_valueWords {word : String} (member : word ∈ valueWords) :
    word ∈ optionWords ∧
      ∀ letter ∈ word.toList, letter.toNat < 128 ∧ letter ≠ 'K' ∧ isBlank letter = false := by
  have plain : ∀ word ∈ valueWords, word ∈ optionWords ∧ word.toList.all (fun letter =>
      letter.toNat < 128 && letter != 'K' && !isBlank letter) = true := by decide
  obtain ⟨known, all⟩ := plain word member
  refine ⟨known, fun letter inside => ?_⟩
  simpa [and_assoc] using List.all_eq_true.mp all letter inside

/-- No option word stands in a text, in any letter case. -/
def Silent (text : Text) : Prop :=
  ∀ word ∈ optionWords, hasPhrase word (flagText text) = false

instance (text : Text) : Decidable (Silent text) :=
  inferInstanceAs (Decidable (∀ word ∈ optionWords, _ = _))

/-- A form of a letter has that letter as its upper-case form, except for the Kelvin sign. -/
theorem upperForm_of_isFormOf {letter c : Char} (ascii : letter.toNat < 128) (other : letter ≠ 'K')
    (form : isFormOf letter c = true) : upperForm c = [letter] := by
  have shape : c.toUpper = letter ∨ letter = 'S' ∧ c = 'ſ' := by
    simpa [isFormOf, other] using form
  rcases shape with upper | ⟨rfl, rfl⟩
  · have small : c.toNat < 128 := by
      apply Nat.lt_of_not_le
      intro large
      have same : c.toUpper = c := by
        refine dif_neg ?_
        rintro ⟨_, lower⟩
        have below : c.toNat ≤ 122 := lower
        omega
      rw [← upper, same] at ascii
      omega
    unfold upperForm
    split
    all_goals first | exact absurd small (by decide) | rw [upper]
  · rfl

/-- The upper-case form of a spelling is its letters. -/
theorem flatMap_upperForm_of_spells {letters : List Char} {word : Text}
    (plain : ∀ letter ∈ letters, letter.toNat < 128 ∧ letter ≠ 'K')
    (spells : Spells letters word) : word.flatMap upperForm = letters := by
  induction letters generalizing word with
  | nil =>
      obtain rfl := List.eq_nil_of_length_eq_zero spells.length_eq
      rfl
  | cons letter letters ih =>
      obtain ⟨c, rest, rfl, form, more⟩ := Remark.eq_cons_of_spells spells
      obtain ⟨⟨ascii, other⟩, later⟩ := List.forall_mem_cons.mp plain
      rw [List.flatMap_cons, upperForm_of_isFormOf ascii other form, ih later more]
      rfl

/-- A keyword that is spelled in a text stands in the form in which flags are looked for. -/
theorem infix_flagText_of_spells {letters : List Char} {word : Text}
    (plain : ∀ letter ∈ letters, letter.toNat < 128 ∧ letter ≠ 'K' ∧ isBlank letter = false)
    (spells : Spells letters word) (front back : Text) :
    letters <:+: flagText (front ++ word ++ back) := by
  have visible : ∀ c ∈ word, isBlank c = false := by
    intro c member
    obtain ⟨letter, inside, form⟩ := Remark.exists_isFormOf_of_spells spells member
    cases blank : isBlank c with
    | false => rfl
    | true =>
        rw [isFormOf_of_isBlank blank (plain letter inside).2.2] at form
        cases form
  obtain ⟨before, after, whole⟩ := infix_collapse visible front back
  have shown := flatMap_upperForm_of_spells
    (fun letter inside => ⟨(plain letter inside).1, (plain letter inside).2.1⟩) spells
  refine ⟨' ' :: before.flatMap upperForm, after.flatMap upperForm ++ [' '], ?_⟩
  rw [flagText, ← whole, List.flatMap_append, List.flatMap_append, shown]
  simp

namespace Silent

variable {text : Text} {word phrase : String}

/-- No option word stands in the flag text of a silent text. -/
theorem not_infix (silent : Silent text) (member : word ∈ optionWords) :
    ¬ word.toList <:+: flagText text := by
  intro inside
  have occurs := occursIn_iff.mpr inside
  rw [← hasPhrase, silent word member] at occurs
  cases occurs

/-- No flag is a word of a silent text. -/
theorem hasWord_eq_false (silent : Silent text) (member : word ∈ optionWords) :
    hasWord word (flagText text) = false := by
  rw [← Bool.not_eq_true, hasWord_eq_true_iff]
  rintro ⟨front, back, whole, _⟩
  exact silent.not_infix member ⟨front, back, whole.symm⟩

/-- No phrase that holds an option word is in a silent text. -/
theorem hasPhrase_eq_false (silent : Silent text) (member : word ∈ optionWords)
    (holds : word.toList <:+: phrase.toList) : hasPhrase phrase (flagText text) = false := by
  rw [hasPhrase, ← Bool.not_eq_true, occursIn_iff]
  exact fun inside => silent.not_infix member (holds.trans inside)

/-- No clause of an option word is in a silent text. -/
theorem clause?_eq_none {α : Type} (silent : Silent text) (member : word ∈ valueWords)
    (value? : Text → Option α) : clause? word value? text = none := by
  obtain ⟨known, plain⟩ := plain_of_mem_valueWords member
  rw [clause?_eq, Option.map_eq_none_iff, search_eq_none_iff_forall]
  rintro passed rest rfl
  cases found : clauseTest word value? (passed.getLast?.or none) rest with
  | none => rfl
  | some value =>
      obtain ⟨_, spelled, gap, after, rfl, spells, _⟩ := clauseTest_eq_some_iff.mp found
      have inside := infix_flagText_of_spells plain spells passed (gap ++ after)
      rw [List.append_assoc] at inside
      exact absurd inside (silent.not_infix known)

end Silent

namespace Reading

/-- Nothing is said. -/
def nothing : Reading where
  language := none
  immutable := false
  stable := false
  securityDefiner := false
  leakproof := false
  notLeakproof := false
  strict := false
  cost := none
  rows := none
  window := false
  parallel := none

/-- A silent text says nothing. -/
theorem of_silent {text : Text} (silent : Silent text) (after : Text) :
    of text after = nothing := by
  have word (flag : String) (member : flag ∈ optionWords) := silent.hasWord_eq_false member
  simp only [of, nothing, numberIn,
    silent.clause?_eq_none (show "LANGUAGE" ∈ valueWords by decide),
    silent.clause?_eq_none (show "COST" ∈ valueWords by decide),
    silent.clause?_eq_none (show "ROWS" ∈ valueWords by decide),
    silent.clause?_eq_none (show "PARALLEL" ∈ valueWords by decide),
    word "IMMUTABLE" (by decide), word "STABLE" (by decide), word "LEAKPROOF" (by decide),
    word "STRICT" (by decide), word "WINDOW" (by decide),
    silent.hasPhrase_eq_false (show "SECURITY" ∈ optionWords by decide)
      (show _ <:+: "SECURITY DEFINER".toList from ⟨[], " DEFINER".toList, by decide⟩),
    silent.hasPhrase_eq_false (show "LEAKPROOF" ∈ optionWords by decide)
      (show _ <:+: "NOT LEAKPROOF".toList from ⟨"NOT ".toList, [], by decide⟩),
    silent.hasPhrase_eq_false (show "NULL" ∈ optionWords by decide)
      (show _ <:+: "RETURNS NULL ON NULL INPUT".toList from
        ⟨"RETURNS ".toList, " ON NULL INPUT".toList, by decide⟩),
    silent.hasPhrase_eq_false (show "NULL" ∈ optionWords by decide)
      (show _ <:+: "CALLED ON NULL INPUT".toList from
        ⟨"CALLED ON ".toList, " INPUT".toList, by decide⟩),
    Bool.or_false]

/-- A language name that is not opened by a double quote ends in front of a single quote. -/
theorem languageName?_quote {text : Text} (plain : '"' ∉ text) (after : Text) :
    languageName? (text ++ '\'' :: after) = languageName? (text ++ ['\'']) := by
  have stops : (Recogniser.run1 isFoldedIdentifierChar).StopsAt '\'' := stopsAt_run1 (by decide)
  have read (after : Text) : languageName? (text ++ '\'' :: after) =
      (Recogniser.run1 isFoldedIdentifierChar text).map Prod.fst := by
    rw [languageName?, stops, Option.map_map]
    · rfl
    · intro rest quoted
      cases text with
      | nil => cases (List.cons.inj quoted).1
      | cons c text =>
          apply plain
          rw [(List.cons.inj quoted).1]
          exact List.mem_cons_self
  rw [read, read]

/-- The text behind a quote decides on nothing that is said in front of it, where no double quote
stands there. -/
theorem of_quote {text : Text} (plain : '"' ∉ text) (after : Text) :
    of text ('\'' :: after) = of text ['\''] := by
  have parts : (Recogniser.sequence [.keyword "LANGUAGE", .blanks]).Splits := by
    apply splits_sequence
    simp only [List.forall_mem_cons]
    exact ⟨splits_keyword _, splits_blanks, fun _ member => absurd member List.not_mem_nil⟩
  have language : clause? "LANGUAGE" (fun rest => languageName? (rest ++ '\'' :: after)) text =
      clause? "LANGUAGE" (fun rest => languageName? (rest ++ ['\''])) text := by
    rw [clause?_eq, clause?_eq]
    refine congrArg _ (search_congr (fun previous rest suffix => ?_) none)
    rw [clauseTest, clauseTest]
    cases read : Recogniser.sequence [.keyword "LANGUAGE", .blanks] rest with
    | none => rfl
    | some found =>
        have whole := parts _ _ _ read
        have absent : '"' ∉ found.2 := by
          intro member
          apply plain
          apply suffix.subset
          rw [whole]
          exact List.mem_append_right _ member
        simp only [languageName?_quote absent]
  rw [of, of, language]

/-- Silent literals are read alike. -/
theorem around_of_silent {front content : Text} (plain : '"' ∉ front) (silent : Silent content)
    (back : Text) :
    around front content back = (of front.maskComments ['\'']).followedBy
      (nothing.followedBy (of (maskedAfterLiteral back) [])) := by
  have masked : '"' ∉ front.maskComments := by
    intro member
    rcases mem_of_mem_maskComments member with inside | space
    · exact plain inside
    · exact absurd space (by decide)
  rw [around, of_quote masked, of_silent silent]

end Reading

/-- **Silent literals can be exchanged.** Two literals that hold no option word, in any letter case,
leave the options the same, where no double quote stands in front of them. -/
theorem ofText_literal_of_silent {front content other : Text} (closed : front.endMode = .normal)
    (plain : '"' ∉ front) (unquoted : '\'' ∉ content) (unquotedToo : '\'' ∉ other)
    (silent : Silent content) (silentToo : Silent other) (back : Text) :
    (ofText (front ++ '\'' :: (content ++ '\'' :: back))).untyped =
      (ofText (front ++ '\'' :: (other ++ '\'' :: back))).untyped := by
  rw [untyped_ofText_literal closed unquoted, untyped_ofText_literal closed unquotedToo,
    Reading.around_of_silent plain silent, Reading.around_of_silent plain silentToo]

example : Silent "pg_catalog, public".toList ∧ ¬ Silent "immutable".toList := by decide +kernel

end Options

end RoutineScripts
