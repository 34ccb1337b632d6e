import RoutineScripts.Proofs.Marker.Edit
import RoutineScripts.Proofs.Routine.Coherence
import RoutineScripts.Proofs.Routine.Opening
import RoutineScripts.Proofs.Routine.Spacing

/-!
# Declarations of `plpgsql`

The words `LANGUAGE plpgsql` (`Marker.Declares`) are looked for anywhere in a text. They cannot
stand across the place where two parts of a text meet (`Marker.declaresPlpgsql_append`) when a
character that none of them holds stands there, or another word ends there. So a script declares
`plpgsql` in one of its parts: `Script.declaresPlpgsql_text`.
-/

namespace RoutineScripts

/-- The letters of the words `LANGUAGE plpgsql`. -/
def declarationLetters : List Char :=
  "LANGUAGEPLPGSQL".toList

/-- A form of a letter is a word character. -/
theorem isWordChar_of_isFormOf {letter c : Char} (member : letter ∈ declarationLetters)
    (form : isFormOf letter c = true) : isWordChar c = true := by
  have checked : ∀ letter ∈ declarationLetters, decide (letter.toNat < 128 ∧
      ∀ code ∈ formCodes, isFormOf letter (Char.ofNat code) = true →
        isWordChar (Char.ofNat code) = true) = true :=
    List.all_eq_true.mp (by decide +kernel)
  obtain ⟨ascii, words⟩ := of_decide_eq_true (checked letter member)
  exact eq_true_of_isFormOf ascii words form

/-- A spelling in these letters holds word characters only. -/
theorem isWordChar_of_spells {letters : List Char} {word : Text}
    (part : letters ⊆ declarationLetters) (spells : Recogniser.Spells letters word) :
    ∀ c ∈ word, isWordChar c = true := fun _ member =>
  let ⟨_, inside, form⟩ := Remark.exists_isFormOf_of_spells spells member
  isWordChar_of_isFormOf (part inside) form

namespace Marker

open Recogniser Text

/-! ### The words of a declaration -/

/-- The name `plpgsql`, quoted, or not quoted and followed by the end of a word. -/
def Names (name rest : Text) : Prop :=
  Spells "PLPGSQL".toList name ∧ endsWord rest = true ∨
    ∃ inner, name = '"' :: inner ++ ['"'] ∧ Spells "PLPGSQL".toList inner

/-- The words `LANGUAGE plpgsql` in front of a text. -/
def Declares (words rest : Text) : Prop :=
  ∃ spelled gap name, words = spelled ++ gap ++ name ∧ Spells "LANGUAGE".toList spelled ∧
    Remark.IsGap gap ∧ Names name rest

/-- The name is recognised when the text starts with it. -/
theorem isPlpgsqlName_iff {text : Text} :
    isPlpgsqlName text = true ↔ ∃ name rest, text = name ++ rest ∧ Names name rest := by
  have quoted :
      (Recogniser.sequence [.char '"', .keyword "PLPGSQL", .char '"'] text).isSome = true ↔
        ∃ inner rest, text = '"' :: inner ++ ['"'] ++ rest ∧ Spells "PLPGSQL".toList inner := by
    simp only [Option.isSome_iff_exists, Prod.exists, Recogniser.sequence, List.foldr_cons,
      List.foldr_nil, andThen_eq_some_iff, char_eq_some_iff, keyword_eq_some_iff, nothing,
      Option.some.injEq, Prod.mk.injEq]
    constructor
    · rintro ⟨_, rest, _, _, _, ⟨rfl, rfl⟩, ⟨inner, _, _, ⟨spells, rfl⟩, ⟨_, after, _, ⟨rfl, rfl⟩,
        ⟨rfl, same⟩, rfl⟩, rfl⟩, rfl⟩
      exact ⟨inner, rest, by simp [same], spells⟩
    · rintro ⟨inner, rest, rfl, spells⟩
      refine ⟨_, rest, _, _, _, ⟨rfl, rfl⟩, ⟨inner, '"' :: rest, _, ⟨spells, ?_⟩,
        ⟨_, _, _, ⟨rfl, rfl⟩, ⟨rfl, rfl⟩, rfl⟩, rfl⟩, rfl⟩
      simp
  rw [isPlpgsqlName, Bool.or_eq_true, quoted]
  constructor
  · rintro (⟨inner, rest, whole, spells⟩ | bare)
    · exact ⟨_, rest, whole, Or.inr ⟨inner, rfl, spells⟩⟩
    · split at bare
      case h_1 name rest read =>
        obtain ⟨spells, whole⟩ := keyword_eq_some_iff.mp read
        exact ⟨name, rest, whole, Or.inl ⟨spells, bare⟩⟩
      case h_2 => cases bare
  · rintro ⟨name, rest, rfl, ⟨spells, ends⟩ | ⟨inner, rfl, spells⟩⟩
    · refine Or.inr ?_
      rw [keyword_eq_some_iff.mpr ⟨spells, rfl⟩]
      exact ends
    · exact Or.inl ⟨inner, rest, rfl, spells⟩

namespace Names

variable {name rest : Text}

theorem visible (names : Names name rest) (back : Text) :
    (name ++ back).head?.any isBlank = false := by
  rcases names with ⟨spells, _⟩ | ⟨inner, rfl, _⟩
  · exact @Remark.any_isBlank_of_spells _ "LPGSQL".toList _ _ (by decide) spells
  · rfl

/-- A name holds quotes and forms of its letters. -/
theorem not_mem (names : Names name rest) {z : Char} (unquoted : z ≠ '"')
    (avoided : avoids z "PLPGSQL".toList = true) : z ∉ name := by
  rcases names with ⟨spells, _⟩ | ⟨inner, rfl, spells⟩
  · exact not_mem_of_spells avoided spells
  · simp [unquoted, not_mem_of_spells avoided spells]

end Names

/-- A declaration is a clause whose value is the name. -/
theorem declarationTest_eq_clauseTest :
    declarationTest =
      Options.clauseTest "LANGUAGE" fun rest => if isPlpgsqlName rest then some () else none :=
  rfl

/-- A declaration is accepted at the start of a word, with its words in front. -/
theorem declarationTest_eq_some_iff {previous : Option Char} {text : Text} :
    declarationTest previous text = some () ↔
      startsWord previous = true ∧ ∃ words rest, text = words ++ rest ∧ Declares words rest := by
  have accepts (rest : Text) :
      (if isPlpgsqlName rest then some () else none) = some () ↔ isPlpgsqlName rest = true := by
    simp
  rw [declarationTest_eq_clauseTest, Options.clauseTest_eq_some_iff]
  refine and_congr_right fun _ => ?_
  simp only [accepts, isPlpgsqlName_iff]
  constructor
  · rintro ⟨spelled, gap, _, rfl, spells, some, blank, _, name, rest, rfl, names⟩
    exact ⟨spelled ++ gap ++ name, rest, by simp, spelled, gap, name, rfl, spells, ⟨some, blank⟩,
      names⟩
  · rintro ⟨_, rest, rfl, spelled, gap, name, rfl, spells, ⟨some, blank⟩, names⟩
    exact ⟨spelled, gap, name ++ rest, by simp, spells, some, blank, names.visible rest, name, rest,
      rfl, names⟩

/-- **Declarations.** A text declares `plpgsql` where the words stand in it. -/
theorem declaresPlpgsql_iff {text : Text} :
    declaresPlpgsql text = true ↔
      ∃ front words back, text = front ++ words ++ back ∧ startsWord front.getLast? = true ∧
        Declares words back := by
  rw [declaresPlpgsql_eq, search_isSome_iff]
  constructor
  · rintro ⟨front, _, rfl, accepts⟩
    obtain ⟨_, accepted⟩ := Option.isSome_iff_exists.mp accepts
    obtain ⟨starts, words, back, rfl, declares⟩ := declarationTest_eq_some_iff.mp accepted
    exact ⟨front, words, back, by simp, by simpa using starts, declares⟩
  · rintro ⟨front, words, back, rfl, starts, declares⟩
    refine ⟨front, words ++ back, by simp, ?_⟩
    rw [Option.or_none, declarationTest_eq_some_iff.mpr ⟨starts, words, back, rfl, declares⟩]
    rfl

namespace Declares

variable {words rest : Text}

theorem ne_nil (declares : Declares words rest) : words ≠ [] := by
  obtain ⟨spelled, gap, name, rfl, _, isGap, _⟩ := declares
  simp [isGap.1]

/-- A declaration holds white space, quotes and forms of its letters. -/
theorem not_mem (declares : Declares words rest) {z : Char} (visible : isBlank z = false)
    (unquoted : z ≠ '"') (avoided : avoids z declarationLetters = true) : z ∉ words := by
  obtain ⟨spelled, gap, name, rfl, spells, isGap, names⟩ := declares
  have avoidsPart (letters : List Char) (part : letters ⊆ declarationLetters) :
      avoids z letters = true :=
    List.all_eq_true.mpr fun letter member => List.all_eq_true.mp avoided letter (part member)
  have inGap : z ∉ gap := fun member => by
    rw [isGap.2 z member] at visible
    cases visible
  simp only [List.mem_append, not_or]
  exact ⟨⟨not_mem_of_spells (avoidsPart _ (by decide)) spells, inGap⟩,
    names.not_mem unquoted (avoidsPart _ (by decide))⟩

/-- A declaration starts with a letter. -/
theorem exists_cons (declares : Declares words rest) :
    ∃ c others, words = c :: others ∧ isWordChar c = true := by
  obtain ⟨spelled, gap, name, rfl, spells, _⟩ := declares
  obtain ⟨c, others, rfl, form, _⟩ :=
    @Remark.eq_cons_of_spells _ "ANGUAGE".toList _ spells
  exact ⟨c, others ++ gap ++ name, by simp, isWordChar_of_isFormOf (by decide) form⟩

/-- What follows a declaration matters only as far as it ends a name that is not quoted. -/
theorem congr (declares : Declares words rest) {other : Text}
    (ends : endsWord rest = true → startsWord words.getLast? = false → endsWord other = true) :
    Declares words other := by
  obtain ⟨spelled, gap, name, rfl, spells, isGap, named⟩ := declares
  refine ⟨spelled, gap, name, rfl, spells, isGap, ?_⟩
  rcases named with ⟨bare, stops⟩ | quoted
  · refine Or.inl ⟨bare, ends stops ?_⟩
    have nonempty : name ≠ [] := by
      rintro rfl
      cases bare
    have word := isWordChar_of_spells (by decide) bare _ (List.getLast_mem nonempty)
    rw [List.getLast?_append, List.getLast?_eq_some_getLast nonempty, Option.some_or, startsWord]
    simp [word]
  · exact Or.inr quoted

end Declares

/-- **Declarations in parts of a text.** A declaration in a text stands in one of two parts of it,
when none can stand across the place where they meet and a word ends there. -/
theorem declaresPlpgsql_append {front back : Text}
    (bound : startsWord front.getLast? = true ∨ endsWord back = true)
    (apart : ∀ left right rest, Declares (left ++ right) rest → left <:+ front → right <+: back →
      left = [] ∨ right = []) :
    declaresPlpgsql (front ++ back) = true ↔
      declaresPlpgsql front = true ∨ declaresPlpgsql back = true := by
  simp only [declaresPlpgsql_iff]
  constructor
  · rintro ⟨passed, words, rest, split, starts, declares⟩
    rw [List.append_assoc] at split
    rcases List.append_eq_append_iff.mp split with ⟨more, rfl, shape⟩ | ⟨more, rfl, shape⟩
    · refine Or.inr ⟨more, words, rest, by rw [shape, List.append_assoc], ?_, declares⟩
      cases more with
      | nil => rfl
      | cons c more => simpa [List.getLast?_append, List.getLast?_cons] using starts
    · rcases List.append_eq_append_iff.mp shape with ⟨others, rfl, rfl⟩ | ⟨others, rfl, rfl⟩
      · refine Or.inl ⟨passed, words, others, by simp, starts, declares.congr fun ends _ => ?_⟩
        cases others with
        | nil => rfl
        | cons c others => exact ends
      · rcases apart more others rest declares (List.suffix_append _ _)
          (List.prefix_append _ _) with rfl | rfl
        · refine Or.inr ⟨[], others, rest, by simp, rfl, declares⟩
        · refine Or.inl ⟨passed, more, [], by simp, starts, ?_⟩
          rw [List.append_nil] at declares
          exact declares.congr fun _ _ => rfl
  · rintro (⟨passed, words, rest, rfl, starts, declares⟩ | ⟨passed, words, rest, rfl, starts,
      declares⟩)
    · refine ⟨passed, words, rest ++ back, by simp, starts, declares.congr fun ends last => ?_⟩
      cases rest with
      | cons c rest => exact ends
      | nil =>
          refine bound.resolve_left fun starts => ?_
          rw [List.append_nil, List.getLast?_append,
            List.getLast?_eq_some_getLast declares.ne_nil, Option.some_or,
            ← List.getLast?_eq_some_getLast declares.ne_nil, last] at starts
          cases starts
    · refine ⟨front ++ passed, words, rest, by simp, ?_, declares⟩
      rw [List.getLast?_append]
      cases last : passed.getLast? with
      | some c => simpa [last] using starts
      | none =>
          refine bound.resolve_right fun ends => ?_
          obtain rfl := List.getLast?_eq_none_iff.mp last
          obtain ⟨c, others, rfl, word⟩ := declares.exists_cons
          simp [endsWord, word] at ends

/-! ### Parts of a script -/

/-- A character that stands in no declaration and extends no word. -/
structure Bars (z : Char) : Prop where
  visible : isBlank z = false := by decide
  unquoted : z ≠ '"' := by decide
  avoided : avoids z declarationLetters = true := by decide
  notWord : isWordChar z = false := by decide

theorem declaresPlpgsql_nil : declaresPlpgsql [] = false := by
  decide

/-- A declaration does not start with a character that is no word character. -/
theorem declaresPlpgsql_cons {z : Char} (notWord : isWordChar z = false) (back : Text) :
    declaresPlpgsql (z :: back) = true ↔ declaresPlpgsql back = true := by
  have split : declaresPlpgsql ([z] ++ back) = true ↔
      declaresPlpgsql [z] = true ∨ declaresPlpgsql back = true := by
    refine declaresPlpgsql_append (Or.inl (by simp [startsWord, notWord])) ?_
    intro left right rest declares inside _
    rcases left with _ | ⟨c, left⟩
    · exact Or.inl rfl
    · obtain ⟨d, others, shape, word⟩ := declares.exists_cons
      obtain ⟨rfl, _⟩ := List.cons.inj shape
      obtain rfl := List.mem_singleton.mp (inside.subset List.mem_cons_self)
      rw [notWord] at word
      cases word
  have alone : ¬ declaresPlpgsql [z] = true := by
    rw [declaresPlpgsql_iff]
    rintro ⟨front, words, rest, shape, _, declares⟩
    obtain ⟨d, others, rfl, word⟩ := declares.exists_cons
    have member : d ∈ [z] := by simp [shape]
    rw [List.mem_singleton.mp member, notWord] at word
    cases word
  rw [← List.singleton_append, split, or_iff_right alone]

/-- **Declarations beside a bar.** None stands across it. -/
theorem declaresPlpgsql_append_cons {z : Char} (bars : Bars z) (front back : Text) :
    declaresPlpgsql (front ++ z :: back) = true ↔
      declaresPlpgsql front = true ∨ declaresPlpgsql back = true := by
  rw [← declaresPlpgsql_cons bars.notWord back]
  refine declaresPlpgsql_append (Or.inr (by simp [endsWord, bars.notWord])) ?_
  rintro left (_ | ⟨c, right⟩) rest declares _ ⟨more, shape⟩
  · exact Or.inr rfl
  · obtain ⟨rfl, _⟩ := List.cons.inj shape
    have absent := declares.not_mem bars.visible bars.unquoted bars.avoided
    simp at absent

/-- A character that bars declarations adds none at the end. -/
theorem declaresPlpgsql_concat {z : Char} (bars : Bars z) (front : Text) :
    declaresPlpgsql (front ++ [z]) = true ↔ declaresPlpgsql front = true := by
  rw [declaresPlpgsql_append_cons bars, declaresPlpgsql_nil]
  simp

/-- A spelling of some letters ends in a form of the last one. -/
theorem exists_concat_of_spells {letters : List Char} {letter : Char} {word : Text}
    (spells : Spells (letters ++ [letter]) word) :
    ∃ front c, word = front ++ [c] ∧ isFormOf letter c = true := by
  induction letters generalizing word with
  | nil =>
      obtain ⟨c, rest, rfl, form, none⟩ := @Remark.eq_cons_of_spells _ [] _ spells
      obtain rfl := List.eq_nil_of_length_eq_zero none.length_eq
      exact ⟨[], c, rfl, form⟩
  | cons first letters ih =>
      obtain ⟨d, rest, rfl, _, others⟩ :=
        @Remark.eq_cons_of_spells _ (letters ++ [letter]) _ spells
      obtain ⟨front, c, rfl, form⟩ := ih others
      exact ⟨d :: front, c, rfl, form⟩

/-- A text that ends in the keyword `AS` and white space. -/
def EndsInKeyword (leading : Text) : Prop :=
  ∃ front s gap, leading = front ++ s :: gap ∧ s.toLower = 's' ∧
    ∀ c ∈ gap, isAsciiBlank c = true

/-- No declaration stands across the place of the body. The word before it is the keyword `AS`, and
the first word of a declaration ends in another letter. -/
theorem declaresPlpgsql_append_space {leading : Text} (ends : EndsInKeyword leading)
    (trailing : Text) :
    declaresPlpgsql (leading ++ ' ' :: trailing) = true ↔
      declaresPlpgsql leading = true ∨ declaresPlpgsql trailing = true := by
  rw [← declaresPlpgsql_cons (z := ' ') (by decide) trailing]
  refine declaresPlpgsql_append (Or.inr rfl) ?_
  rintro left (_ | ⟨c, right⟩) rest declares ⟨before, shape⟩ ⟨more, starts⟩
  · exact Or.inr rfl
  exfalso
  obtain ⟨rfl, _⟩ := List.cons.inj starts
  obtain ⟨spelled, gap, name, whole, spells, isGap, names⟩ := declares
  have avoided : avoids ' ' "LANGUAGE".toList = true ∧ avoids ' ' "PLPGSQL".toList = true := by
    decide
  rw [List.append_assoc] at whole
  -- The space stands between the two words, so only white space stands before it.
  obtain ⟨inner, rfl, within⟩ :=
    exists_append_of_not_mem whole (not_mem_of_spells avoided.1 spells)
  have blank : ∀ d ∈ inner, isBlank d = true := by
    rcases List.append_eq_append_iff.mp within with ⟨more, rfl, tail⟩ | ⟨more, rfl, _⟩
    · have absent := names.not_mem (by decide) avoided.2
      simp [tail] at absent
    · exact fun d member => isGap.2 d (List.mem_append_left _ member)
  obtain ⟨front, e, rfl, isE⟩ := @exists_concat_of_spells "LANGUAG".toList _ _ spells
  obtain ⟨opening, s, space, rfl, isS, spaces⟩ := ends
  have visibleE : isBlank e = false := by
    rw [Bool.eq_false_iff]
    intro isBlankChar
    rw [isFormOf_of_isBlank isBlankChar (by decide)] at isE
    cases isE
  have visibleS : isBlank s = false := by
    rw [Bool.eq_false_iff]
    intro isBlankChar
    rw [toLower_of_isBlank isBlankChar] at isS
    rw [isS] at isBlankChar
    cases isBlankChar
  have same : before ++ front ++ e :: inner = opening ++ s :: space := by
    rw [← shape]
    simp
  obtain ⟨_, rfl, _⟩ := append_cons_inj_of_tail visibleE visibleS blank
    (fun d member => isBlank_of_isAsciiBlank (spaces d member)) same
  have differs : (e.toLower != 's') = true :=
    @eq_true_of_isFormOf (·.toLower != 's') _ _ (by decide) (by decide +kernel) isE
  simp [isS] at differs
end Marker

namespace Script

open Text Recogniser Marker

/-- The text up to the parenthesis that closes the argument list. -/
def listed (script : Script) : Text :=
  script.before ++ script.header.written ++ script.name ++ '(' :: script.arguments

/-- The text from the end of the statement on. -/
def remains (script : Script) : Text :=
  (script.remark.map Remark.written).getD [] ++ script.after

/-- Whether the words `LANGUAGE plpgsql` stand outside the options: before them, in the body, or
after the statement. -/
def DeclaresElsewhere (script : Script) : Prop :=
  declaresPlpgsql script.listed = true ∨ declaresPlpgsql script.body.written = true ∨
    declaresPlpgsql script.remains = true

/-- A remark starts with a form of C. -/
theorem exists_cons_of_remark {text : Text} {script : Script} {remark : Remark}
    (found : ofText? text = some script) (remarked : script.remark = some remark) :
    ∃ c rest, remark.written = c :: rest ∧ isFormOf 'C' c = true := by
  obtain ⟨tail, statement, named, listed, _, cut, _⟩ := ofText?_eq_some_iff.mp found
  rw [remarked, cutStatement] at cut
  split at cut
  case h_1 before comment after searched =>
    obtain rfl : comment = remark := by simpa using congrArg (fun parts => parts.2.1) cut
    unfold Remark.find? at searched
    split at searched
    case h_1 passed words d rest opened =>
      split at searched
      case h_1 => cases searched
      case h_2 value valued =>
        simp only [Option.map_eq_some_iff, Prod.mk.injEq] at searched
        obtain ⟨_, _, _, rfl, _⟩ := searched
        obtain ⟨_, _, accepted⟩ := eq_append_of_search opened
        obtain ⟨c, e, others, rfl, isC, _⟩ := (Remark.opening_eq_some_iff.mp accepted).1.eq_cons
        exact ⟨c, _, by simp; rfl, isC⟩
    case h_2 => cases searched
  case h_2 =>
    split at cut
    case h_1 => cases cut
    case h_2 => cases cut

/-- Nothing is declared across the end of a statement, when a remark is not joined to the last word
of the options. -/
theorem declaresPlpgsql_append_remains {text : Text} {script : Script}
    (found : ofText? text = some script)
    (apart : script.remark = none ∨ startsWord script.trailing.getLast? = true) :
    declaresPlpgsql (script.trailing ++ script.remains) = true ↔
      declaresPlpgsql script.trailing = true ∨ declaresPlpgsql script.remains = true := by
  cases remarked : script.remark with
  | none =>
      have bare : script.remains = script.after := by
        rw [remains, remarked]
        rfl
      have laid := laid_of_ofText? found
      rcases laid.statement remarked with ⟨_, none⟩ | ⟨front, ended, _⟩
      · rw [bare, none, declaresPlpgsql_nil]
        simp
      · obtain ⟨trail, same, _⟩ := laid.fits.exists_trailing ended
        have bars : Bars ';' := {}
        rw [same, declaresPlpgsql_concat bars, List.append_assoc, List.singleton_append,
          declaresPlpgsql_append_cons bars]
  | some remark =>
      obtain ⟨c, rest, starts, isC⟩ := exists_cons_of_remark found remarked
      have opens : script.remains = c :: (rest ++ script.after) := by
        rw [remains, remarked, Option.map_some, Option.getD_some, starts, List.cons_append]
      rw [remarked] at apart
      refine declaresPlpgsql_append (Or.inl (apart.resolve_left (by simp))) ?_
      rintro left (_ | ⟨d, right⟩) words declares _ ⟨more, shape⟩
      · exact Or.inr rfl
      · rw [opens] at shape
        obtain ⟨rfl, _⟩ := List.cons.inj shape
        have checked : (!isBlank d && d != '"' && avoids d declarationLetters) = true :=
          @eq_true_of_isFormOf (fun d => !isBlank d && d != '"' && avoids d declarationLetters) _ _
            (by decide) (by decide +kernel) isC
        simp only [Bool.and_eq_true, Bool.not_eq_true', bne_iff_ne] at checked
        have absent := declares.not_mem checked.1.1 checked.1.2 checked.2
        simp at absent

/-- **Where a script declares `plpgsql`.** The words stand outside the options or among them. -/
theorem declaresPlpgsql_text {text tag content : Text} {script : Script}
    (found : ofText? text = some script) (dollar : script.body = .dollar tag content)
    (apart : script.remark = none ∨ startsWord script.trailing.getLast? = true) :
    declaresPlpgsql text = true ↔
      script.DeclaresElsewhere ∨ declaresPlpgsql script.optionText = true := by
  have bars : Bars ')' ∧ Bars '$' := ⟨{}, {}⟩
  obtain ⟨name, rfl, _⟩ := (opensBody_of_ofText? found dollar).1.isTag
  have ends : EndsInKeyword script.leading := by
    obtain ⟨words, gap, leads, blank, keyword⟩ := (laid_of_ofText? found).keyword
    obtain ⟨passed, first, second, rest, _, rfl, _, _, _, isS, _⟩ := splitAs?_congr keyword
    refine ⟨ofGlyphs (passed ++ [first]), second.char, gap, ?_, isS, blank⟩
    rw [leads]
    simp [ofGlyphs]
  let inside : Text := name ++ '$' :: content ++ '$' :: name
  have written : script.body.written = '$' :: inside ++ ['$'] := by
    rw [dollar]
    simp [Literal.written, inside]
  have whole : text = script.listed ++ ')' :: (script.leading ++ '$' :: (inside ++ '$' ::
      (script.trailing ++ script.remains))) := by
    rw [← text_of_ofText? found, Script.text, prologue, written, epilogue, listed, remains]
    simp
  rw [whole, declaresPlpgsql_append_cons bars.1, declaresPlpgsql_append_cons bars.2,
    declaresPlpgsql_append_cons bars.2, declaresPlpgsql_append_remains found apart,
    DeclaresElsewhere, written, declaresPlpgsql_concat bars.2, declaresPlpgsql_cons bars.2.notWord,
    optionText, declaresPlpgsql_append_space ends]
  simp only [or_assoc, or_left_comm, or_comm]

end Script

end RoutineScripts
