import RoutineScripts.Proofs.Routine.Characters
import RoutineScripts.Proofs.Routine.Opening
import RoutineScripts.Proofs.Routine.Remark
import RoutineScripts.Proofs.Routine.Suffix

/-!
# Comment statements after a definition

A comment statement that is put after a finished definition is read back. Its literal is the first
one that `IS` leads up to: the reference to the routine holds no quote and no dollar sign, so the
first such sign is the one that opens the literal (`Remark.search_introduced`), and a literal of the
other form opens later (`Remark.findValue?_of_quoted`, `Remark.findValue?_of_dollar`). The literal
ends where it was written to end, since every quote in it is doubled or it has no dollar sign.

The main statement is `Definition.ofText?_onFunction`: the comment is the one that was written, up
to the kind of line breaks, and the rest of the definition is the same as without the statement.
-/

namespace RoutineScripts

namespace Text

/-! ### Doubled quotes -/

/-- A quote is doubled. -/
theorem double_quote (rest : Text) : double ('\'' :: rest) = '\'' :: '\'' :: double rest := rfl

theorem double_cons {c : Char} (differs : c ≠ '\'') (rest : Text) :
    double (c :: rest) = c :: double rest := by
  rw [double, List.flatMap_cons, if_neg differs]
  rfl

/-- Doubling the quotes of a text loses nothing. -/
theorem undouble_double (text : Text) : text.double.undouble = text := by
  induction text with
  | nil => rfl
  | cons c rest ih =>
      by_cases quote : c = '\''
      · subst quote
        rw [double_quote, undouble, ih]
      · rw [double_cons quote, undouble.eq_3 _ _ fun _ isQuote _ => quote isQuote, ih]

/-- Doubling leaves no single quote. -/
theorem quotesDoubled_double (text : Text) : QuotesDoubled text.double := by
  induction text with
  | nil => exact .nil
  | cons c rest ih =>
      by_cases quote : c = '\''
      · subst quote
        exact .pair ih
      · rw [double_cons quote]
        exact .char quote ih

/-- A text reaches a character later than one that does not hold it. -/
theorem length_lt_of_not_mem {first second firstRest secondRest : Text} {y z : Char}
    (same : first ++ y :: firstRest = second ++ z :: secondRest) (absent : z ∉ first)
    (differs : z ≠ y) : first.length < second.length := by
  obtain ⟨rest, rfl, shape⟩ := exists_append_of_not_mem same.symm absent
  cases rest with
  | nil => exact absurd (List.cons.inj shape).1.symm differs
  | cons c rest => simp

end Text

namespace Remark

open Text

/-! ### The literal of a comment statement -/

/-- A sign that opens the literal of a comment statement. -/
def IsSign (z : Char) : Prop :=
  z = '\'' ∨ z = '$'

/-- A sign does not stand in the words that introduce a comment. -/
theorem IsSign.not_mem {z : Char} (sign : IsSign z) {words : Text}
    (introduces : IsIntroduction words) : z ∉ words := by
  obtain ⟨i, s, gap, rfl, isI, isS, _, blank⟩ := introduces
  have notBlank : isBlank z = false := by rcases sign with rfl | rfl <;> decide
  have notI : isFormOf 'I' z = false := by rcases sign with rfl | rfl <;> decide
  have notS : isFormOf 'S' z = false := by rcases sign with rfl | rfl <;> decide
  intro member
  rcases List.mem_cons.mp member with rfl | member
  · rw [isI] at notI
    cases notI
  rcases List.mem_cons.mp member with rfl | member
  · rw [isS] at notS
    cases notS
  · rw [blank z member] at notBlank
    cases notBlank

/-- Only the last `IS` before the first sign leads up to it. -/
theorem not_introduction_of_longer {z c : Char} (sign : IsSign z) {front tail words opened : Text}
    (absent : z ∉ c :: front) :
    Remark.introduction (c :: (front ++ ("IS ".toList ++ z :: tail))) ≠
      some (words, z :: opened) := by
  intro introduced
  obtain ⟨introduces, split, _⟩ := introduction_eq_some_iff.mp introduced
  have noSign : z ∉ c :: front ++ "IS ".toList := by
    have outside : z ∉ "IS ".toList := by rcases sign with rfl | rfl <;> decide
    exact fun member => (List.mem_append.mp member).elim absent outside
  obtain ⟨words_eq, _⟩ := append_cons_inj
    (show (c :: front ++ "IS ".toList) ++ z :: tail = words ++ z :: opened by simpa using split)
    noSign (sign.not_mem introduces)
  obtain ⟨i, s, gap, rfl, _, isS, _, blank⟩ := introduces
  cases front with
  | nil =>
      obtain ⟨_, rest⟩ := List.cons.inj words_eq
      obtain ⟨rfl, _⟩ := List.cons.inj rest
      exact absurd isS (by decide)
  | cons d front =>
      obtain ⟨_, rest⟩ := List.cons.inj words_eq
      obtain ⟨_, rfl⟩ := List.cons.inj rest
      exact absurd (blank 'I' (by simp)) (by decide)

/-- A reader of literals that need an introduction finds the first sign after `IS`. -/
theorem search_introduced {α : Type} {read? : Text → Option α} {z : Char} (sign : IsSign z)
    (introduces : ∀ text found, read? text = some found →
      ∃ words opened, introduction text = some (words, z :: opened))
    {front tail : Text} {found : α} (absent : z ∉ front)
    (read : read? ("IS ".toList ++ z :: tail) = some found) :
    search (fun _ rest => read? rest) none (front ++ ("IS ".toList ++ z :: tail)) =
      some (front, found) := by
  refine search_eq_some_iff.mpr ⟨_, rfl, ?_, read⟩
  rintro before c after rfl
  rw [Option.eq_none_iff_forall_ne_some]
  intro other early
  obtain ⟨words, opened, introduced⟩ := introduces _ _ early
  exact not_introduction_of_longer sign (fun member => absent (by simp_all)) introduced

/-- A quoted value is read after its introduction. -/
theorem introduction_of_readQuoted? {text : Text} {value : Value}
    (found : readQuoted? text = some value) :
    ∃ words opened, introduction text = some (words, '\'' :: opened) := by
  rw [readQuoted?] at found
  split at found
  case h_1 words opened introduced => exact ⟨words, opened, introduced⟩
  case h_2 => cases found

/-- An opening tag is read after an introduction. -/
theorem introduction_of_readOpeningTag? {text : Text} {parts : Text × Text × Text}
    (found : readOpeningTag? text = some parts) :
    ∃ words opened, introduction text = some (words, '$' :: opened) := by
  rw [readOpeningTag?] at found
  split at found
  case h_1 => cases found
  case h_2 words rest introduced =>
    obtain ⟨⟨tag, opened⟩, tagged, _⟩ := Option.map_eq_some_iff.mp found
    obtain ⟨later, starts⟩ := List.head?_eq_some_iff.mp (head?_of_dollarTag tagged)
    refine ⟨words, later ++ opened, ?_⟩
    rw [introduced, splits_dollarTag _ _ _ tagged, starts, List.cons_append]

/-- The word `IS` and a space introduce a comment. -/
theorem introduction_is {z : Char} (visible : isBlank z = false) (rest : Text) :
    introduction ("IS ".toList ++ z :: rest) = some ("IS ".toList, z :: rest) :=
  introduction_eq_some_iff.mpr
    ⟨⟨'I', 'S', [' '], rfl, by decide, by decide, by simp, List.forall_mem_singleton.mpr rfl⟩, rfl,
      by simp [visible]⟩

/-- A tag as the scanner has them is a tag here. -/
theorem dollarTag_of_isDollarTag {tag : Text} (isTag : IsDollarTag tag) (rest : Text) :
    dollarTag (tag ++ rest) = some (tag, rest) := by
  obtain ⟨name, rfl, identifiers⟩ := isTag
  have folded : ∀ c ∈ name, isFoldedIdentifierChar c = true := fun c member => by
    rw [isFoldedIdentifierChar, identifiers c member, Bool.true_or]
  have stops : isFoldedIdentifierChar '$' = false := by decide
  simp only [dollarTag, Recogniser.sequence, List.foldr_cons, List.foldr_nil,
    Recogniser.andThen_eq_some_iff, Recogniser.char_eq_some_iff, Recogniser.run_eq_some_iff,
    Recogniser.nothing, Option.some.injEq, Prod.mk.injEq]
  exact ⟨['$'], name ++ '$' :: rest, name ++ ['$'], ⟨rfl, by simp⟩,
    ⟨name, '$' :: rest, ['$'], ⟨rfl, folded, by simp [stops]⟩,
      ⟨['$'], rest, [], ⟨rfl, rfl⟩, ⟨rfl, rfl⟩, rfl⟩, rfl⟩, rfl⟩

/-- A literal between quotes is the first one when no dollar sign stands before it. -/
theorem findValue?_of_quoted {text : Text} {value : Value} (found : findQuoted? text = some value)
    (absent : '$' ∉ value.passed) : findValue? text = some value := by
  cases other : findDollar? text with
  | none => rw [findValue?, found, other]
  | some dollar =>
      obtain ⟨opened, opens⟩ := List.head?_eq_some_iff.mp (ends_of_findQuoted? found).1
      obtain ⟨tagged, opensToo⟩ := List.head?_eq_some_iff.mp (ends_of_findDollar? other).1
      have same := (eq_whole_of_findQuoted? found).symm.trans (eq_whole_of_findDollar? other)
      rw [Value.whole, Value.whole, opens, opensToo] at same
      have shorter := length_lt_of_not_mem (by simpa using same) absent (by decide)
      rw [findValue?, found, other]
      simp only [shorter, if_true]

/-- A dollar-quoted literal is the first one when no quote stands before it. -/
theorem findValue?_of_dollar {text : Text} {value : Value} (found : findDollar? text = some value)
    (absent : '\'' ∉ value.passed) : findValue? text = some value := by
  cases other : findQuoted? text with
  | none => rw [findValue?, found, other]
  | some quoted =>
      obtain ⟨tagged, opens⟩ := List.head?_eq_some_iff.mp (ends_of_findDollar? found).1
      obtain ⟨opened, opensToo⟩ := List.head?_eq_some_iff.mp (ends_of_findQuoted? other).1
      have same := (eq_whole_of_findDollar? found).symm.trans (eq_whole_of_findQuoted? other)
      rw [Value.whole, Value.whole, opens, opensToo] at same
      have shorter := length_lt_of_not_mem (by simpa using same) absent (by decide)
      rw [findValue?, found, other]
      simp only [Nat.lt_asymm shorter, if_false]

/-! ### Statements as they are written -/

/-- How a comment is written as a literal: between quotes, with the quotes in it doubled, or, when
it holds no dollar sign, between two tags. -/
inductive Writes : Text → Text → Prop
  | quoted (comment : Text) : Writes comment.double.quote comment
  | dollar {tag comment : Text} : IsDollarTag tag → '$' ∉ comment →
      Writes (tag ++ comment ++ tag) comment

/-- A comment statement on a function. -/
def onFunction (reference literal : Text) : Text :=
  "COMMENT ON FUNCTION".toList ++ ' ' :: (reference ++ [' '] ++ "IS ".toList) ++ literal ++ [';']

/-- The characters of a reference to a routine: ASCII letters, digits, `_`, `.`, `,`, parentheses
and the space. -/
def isReferenceChar (c : Char) : Bool :=
  isIdentifierChar c || c == '.' || c == ',' || c == '(' || c == ')' || c == ' '

/-- A sign does not stand in a reference. -/
theorem IsSign.not_mem_reference {z : Char} (sign : IsSign z) {reference : Text}
    (refers : ∀ c ∈ reference, isReferenceChar c = true) : z ∉ reference ++ [' '] := by
  intro member
  have isReference : isReferenceChar z = true := by
    rcases List.mem_append.mp member with inside | last
    · exact refers z inside
    · rw [List.mem_singleton.mp last]
      rfl
  rcases sign with rfl | rfl <;> exact absurd isReference (by decide)

variable {reference literal comment : Text}

/-- A comment between quotes is found after a reference. -/
theorem findValue?_quoted (refers : ∀ c ∈ reference, isReferenceChar c = true)
    (comment suffix : Text) :
    findValue? (reference ++ [' '] ++ ("IS ".toList ++ (comment.double.quote ++ ';' :: suffix))) =
      some ⟨reference ++ [' '] ++ "IS ".toList, comment.double.quote, [';'], suffix⟩ := by
  have shape : comment.double.quote ++ ';' :: suffix =
      '\'' :: (comment.double ++ '\'' :: ';' :: suffix) := by simp [quote]
  have closed : splitQuoted? (comment.double ++ '\'' :: ';' :: suffix) =
      some (comment.double, ';' :: suffix) :=
    splitQuoted?_eq_some_iff.mpr ⟨rfl, quotesDoubled_double comment, by simp⟩
  have read : readQuoted? ("IS ".toList ++ '\'' :: (comment.double ++ '\'' :: ';' :: suffix)) =
      some ⟨"IS ".toList, comment.double.quote, [';'], suffix⟩ := by
    rw [readQuoted?_of_quote (introduction_is (by decide) _), closed]
    rfl
  have found : findQuoted? (reference ++ [' '] ++
      ("IS ".toList ++ '\'' :: (comment.double ++ '\'' :: ';' :: suffix))) =
        some ⟨reference ++ [' '] ++ "IS ".toList, comment.double.quote, [';'], suffix⟩ := by
    have quote : IsSign '\'' := Or.inl rfl
    rw [findQuoted?, search_introduced quote (fun _ _ => introduction_of_readQuoted?)
      (quote.not_mem_reference refers) read]
    rfl
  rw [shape]
  refine findValue?_of_quoted found fun member => ?_
  have dollar : IsSign '$' := Or.inr rfl
  rcases List.mem_append.mp member with inside | inside
  · exact dollar.not_mem_reference refers inside
  · exact absurd inside (by decide)

/-- A comment between dollar tags is found after a reference. -/
theorem findValue?_dollar (refers : ∀ c ∈ reference, isReferenceChar c = true) {tag : Text}
    (isTag : IsDollarTag tag) (free : '$' ∉ comment) (suffix : Text) :
    findValue? (reference ++ [' '] ++
        ("IS ".toList ++ (tag ++ comment ++ tag ++ ';' :: suffix))) =
      some ⟨reference ++ [' '] ++ "IS ".toList, tag ++ comment ++ tag, [';'], suffix⟩ := by
  obtain ⟨opened, shape⟩ : ∃ opened, tag ++ comment ++ tag ++ ';' :: suffix = '$' :: opened := by
    obtain ⟨name, rfl, _⟩ := id isTag
    exact ⟨_, rfl⟩
  have read : readOpeningTag? ("IS ".toList ++ '$' :: opened) =
      some ("IS ".toList, tag, comment ++ (tag ++ ';' :: suffix)) := by
    have tagged := dollarTag_of_isDollarTag isTag (comment ++ (tag ++ ';' :: suffix))
    rw [readOpeningTag?, introduction_is (by decide), ← shape]
    simp only [List.append_assoc, tagged, Option.map_some]
  have closing : search (fun _ rest => readClosingTag? rest) none
      (comment ++ (tag ++ ';' :: suffix)) = some (comment, tag, [';'], suffix) := by
    refine search_eq_some_iff.mpr ⟨_, rfl, ?_, ?_⟩
    · -- A closing tag starts with a dollar sign.
      rintro before c after rfl
      have bare : dollarTag (c :: (after ++ (tag ++ ';' :: suffix))) = none := by
        rw [Option.eq_none_iff_forall_ne_some]
        rintro ⟨found, rest⟩ tagged
        obtain ⟨later, rfl⟩ := List.head?_eq_some_iff.mp (head?_of_dollarTag tagged)
        have starts := splits_dollarTag _ _ _ tagged
        obtain ⟨rfl, _⟩ := List.cons.inj starts
        exact free (by simp)
      simp only [readClosingTag?, bare]
    · rw [readClosingTag?, dollarTag_of_isDollarTag isTag]
      rfl
  have dollar : IsSign '$' := Or.inr rfl
  have found : findDollar? (reference ++ [' '] ++ ("IS ".toList ++ '$' :: opened)) =
      some ⟨reference ++ [' '] ++ "IS ".toList, tag ++ comment ++ tag, [';'], suffix⟩ := by
    rw [findDollar?, search_introduced dollar (fun _ _ => introduction_of_readOpeningTag?)
      (dollar.not_mem_reference refers) read]
    simp only [closing, Option.map_some]
  rw [shape]
  refine findValue?_of_dollar found fun member => ?_
  have quote : IsSign '\'' := Or.inl rfl
  rcases List.mem_append.mp member with inside | inside
  · exact quote.not_mem_reference refers inside
  · exact absurd inside (by decide)

/-- A comment in either form is found after a reference. -/
theorem findValue?_of_writes (refers : ∀ c ∈ reference, isReferenceChar c = true)
    (writes : Writes literal comment) (suffix : Text) :
    findValue? (reference ++ [' '] ++ ("IS ".toList ++ (literal ++ ';' :: suffix))) =
      some ⟨reference ++ [' '] ++ "IS ".toList, literal, [';'], suffix⟩ := by
  cases writes with
  | quoted => exact findValue?_quoted refers comment suffix
  | dollar isTag free => exact findValue?_dollar refers isTag free suffix

/-- A literal stands for the comment that it writes, up to the kind of line breaks. -/
theorem unquote?_of_writes (writes : Writes literal comment) :
    unquote? literal = some comment.normalize := by
  cases writes with
  | quoted =>
      have content : bareContent comment.double.quote = comment.double := by
        simp [bareContent, quote]
      rw [unquote?_of_untagged rfl, content, undouble_double]
  | @dollar tag _ isTag _ =>
      have tagged : RoutineScripts.dollarTag? (tag ++ comment ++ tag) = some tag :=
        dollarTag?_eq_some_iff.mpr ⟨isTag, comment ++ tag, by simp⟩
      have closed : beforeTail? tag (comment ++ tag) = some comment :=
        beforeTail?_eq_some_iff.mpr rfl
      rw [unquote?_of_tag tagged, List.append_assoc, afterLead?_append, Option.bind_some, closed,
        Option.map_some]

/-- A comment statement that opens at the front of a text is found there. -/
theorem find?_of_isOpening {words rest : Text} {value : Value} (isOpening : IsOpening words)
    (c : Char) (found : findValue? rest = some value)
    (reads : unquote? value.literal = some comment) :
    find? (words ++ c :: rest) =
      some ([], ⟨words ++ c :: value.passed ++ value.literal ++ value.close, comment⟩,
        value.after) := by
  have opens : opening (words ++ c :: rest) = some (words, c :: rest) :=
    opening_eq_some_iff.mpr ⟨isOpening, rfl⟩
  have searched : search (fun _ rest => opening rest) none (words ++ c :: rest) =
      some ([], words, c :: rest) := search_of_accepts opens
  rw [find?, searched]
  simp only [found, reads, Option.map_some]

/-- The words `COMMENT ON FUNCTION` open a comment statement. -/
theorem isOpening_function : IsOpening "COMMENT ON FUNCTION".toList := by
  have comment : Recogniser.Spells "COMMENT".toList "COMMENT".toList := by
    simp [Recogniser.Spells, isFormOf]
  have on : Recogniser.Spells "ON".toList "ON".toList := by
    simp [Recogniser.Spells, isFormOf]
  have function : Recogniser.Spells "FUNCTION".toList "FUNCTION".toList := by
    simp [Recogniser.Spells, isFormOf]
  have gap : IsGap [' '] := ⟨by simp, List.forall_mem_singleton.mpr rfl⟩
  exact ⟨_, [' '], _, [' '], _, rfl, comment, gap, on, gap, Or.inl function⟩

/-- A comment statement is found at its own start. -/
theorem find?_of_writes {words : Text} (isOpening : IsOpening words)
    (refers : ∀ c ∈ reference, isReferenceChar c = true) (writes : Writes literal comment)
    (suffix : Text) :
    find? (words ++ ' ' :: (reference ++ [' '] ++ "IS ".toList) ++ literal ++ [';'] ++ suffix) =
      some ([], ⟨words ++ ' ' :: (reference ++ [' '] ++ "IS ".toList) ++ literal ++ [';'],
        comment.normalize⟩, suffix) := by
  have found := find?_of_isOpening isOpening ' '
    (findValue?_of_writes refers writes suffix) (unquote?_of_writes writes)
  simpa only [List.append_assoc, List.cons_append, List.nil_append] using found

/-- **Comment statements are read back.** -/
theorem find?_onFunction (refers : ∀ c ∈ reference, isReferenceChar c = true)
    (writes : Writes literal comment) (suffix : Text) :
    find? (onFunction reference literal ++ suffix) =
      some ([], ⟨onFunction reference literal, comment.normalize⟩, suffix) :=
  find?_of_writes isOpening_function refers writes suffix

/-- No comment statement that opens before the end of a finished definition goes on past it. -/
theorem misses_of_semicolon {front gap : Text} (blank : ∀ c ∈ gap, isBlank c = true)
    (misses : Misses (fun _ rest => opening rest) none (front ++ ';' :: gap) []) (back : Text) :
    Misses (fun _ rest => opening rest) none (front ++ ';' :: gap) back := by
  intro before c after split
  rw [Option.eq_none_iff_forall_ne_some]
  rintro ⟨words, rest⟩ found
  obtain ⟨isOpening, whole⟩ := opening_eq_some_iff.mp found
  rw [← List.cons_append] at whole
  by_cases inside : words.length ≤ (c :: after).length
  · obtain ⟨more, shape⟩ : words <+: c :: after :=
      List.prefix_of_prefix_length_le ⟨rest, whole.symm⟩ ⟨back, rfl⟩ inside
    have refused := misses before c after split
    simp only [List.append_nil, ← shape] at refused
    rw [opening_eq_some_iff.mpr ⟨isOpening, rfl⟩] at refused
    cases refused
  · obtain ⟨more, rfl⟩ : c :: after <+: words :=
      List.prefix_of_prefix_length_le ⟨back, rfl⟩ ⟨rest, whole.symm⟩ (by omega)
    -- An opening that goes on past the definition holds no semicolon, so it starts in white space.
    have absent : ';' ∉ c :: after := fun member =>
      isOpening.semicolon_not_mem (List.mem_append_left _ member)
    obtain ⟨lead, _, rfl⟩ := exists_cons_append_of_not_mem split.symm absent
    obtain ⟨first, _, _, shape, isC, _⟩ := isOpening.eq_cons
    obtain ⟨rfl, _⟩ := List.cons.inj shape
    rw [Recogniser.isFormOf_of_isBlank (blank c (by simp)) (by decide)] at isC
    cases isC

end Remark

namespace Script

open Text

/-- The definition ends in its semicolon, and only white space follows. -/
structure Finished (script : Script) : Prop where
  semicolon : script.statement.splitStatement? = some (script.statement, [])
  blank : ∀ c ∈ script.after, isBlank c = true

instance (script : Script) : Decidable script.Finished :=
  decidable_of_iff (script.statement.splitStatement? = some (script.statement, []) ∧
      script.after.all isBlank = true)
    ⟨fun ⟨semicolon, blank⟩ => ⟨semicolon, List.all_eq_true.mp blank⟩,
      fun finished => ⟨finished.semicolon, List.all_eq_true.mpr finished.blank⟩⟩

variable {text reference literal comment : Text} {script : Script}

/-- Where no comment statement opens in a text from its definition on, the script has no remark. -/
theorem remark_eq_none_of_opensNowhere (found : ofText? text = some script)
    (quiet : Remark.OpensNowhere text script.before.length text.length) :
    script.remark = none ∧
      Misses (fun _ rest => Remark.opening rest) none (script.statement ++ script.after) [] := by
  have misses : Misses (fun _ rest => Remark.opening rest) none
      (script.head ++ script.body.written ++ script.epilogue) [] := by
    have shape : text = script.before ++ script.header.written ++
        (script.head ++ script.body.written ++ script.epilogue) ++ [] := by
      rw [← text_of_ofText? found, Script.text, prologue_eq]
      simp
    rw [shape] at quiet
    exact quiet.misses (by simp) (by simp)
  have nothing : Remark.find? (script.head ++ script.body.written ++ script.epilogue) = none := by
    have passed := Remark.find?_append misses
    rwa [List.append_nil] at passed
  have cut := cutStatement_of_ofText? found
  have noRemark : script.remark = none := by
    rw [cutStatement, nothing] at cut
    split at cut
    case h_1 some => cases some
    case h_2 =>
      split at cut
      · exact (congrArg (·.2.1) cut).symm
      · exact (congrArg (·.2.1) cut).symm
  refine ⟨noRemark, ?_⟩
  rwa [epilogue, noRemark, Option.map_none, Option.getD_none, List.append_nil,
    ← List.append_assoc] at misses

/-- A finished definition is cut off where a comment statement is put after it. -/
theorem cutStatement_onFunction (found : ofText? text = some script) (finished : script.Finished)
    (quiet : Remark.OpensNowhere text script.before.length text.length)
    (refers : ∀ c ∈ reference, Remark.isReferenceChar c = true)
    (writes : Remark.Writes literal comment) (suffix : Text) :
    cutStatement (script.statement ++ script.after ++
        (Remark.onFunction reference literal ++ suffix)) =
      (script.statement ++ script.after,
        some ⟨Remark.onFunction reference literal, comment.normalize⟩, suffix) := by
  obtain ⟨trail, trails, _⟩ := exists_trailing finished.semicolon found
  obtain ⟨_, misses⟩ := remark_eq_none_of_opensNowhere found quiet
  have ends : script.statement ++ script.after =
      script.head ++ script.body.written ++ trail ++ ';' :: script.after := by
    rw [statement, trails]
    simp
  rw [ends] at misses ⊢
  have passed := Remark.misses_of_semicolon finished.blank misses
    (Remark.onFunction reference literal ++ suffix)
  rw [cutStatement, Remark.find?_append passed, Remark.find?_onFunction refers writes]
  simp only [Option.map_some, List.append_nil]

/-- **Scripts with a comment statement.** A comment statement that is put after a finished
definition is the remark of the script, and the white space in front of it goes into the text after
the body. -/
theorem ofText?_append_onFunction (found : ofText? text = some script) (finished : script.Finished)
    (quiet : Remark.OpensNowhere text script.before.length text.length)
    (refers : ∀ c ∈ reference, Remark.isReferenceChar c = true)
    (writes : Remark.Writes literal comment) (suffix : Text) :
    ofText? (text ++ (Remark.onFunction reference literal ++ suffix)) =
      some { script with
        trailing := script.trailing ++ script.after
        remark := some ⟨Remark.onFunction reference literal, comment.normalize⟩
        after := suffix } := by
  obtain ⟨noRemark, _⟩ := remark_eq_none_of_opensNowhere found quiet
  have cut := cutStatement_onFunction found finished quiet refers writes suffix
  have text_eq : text = script.before ++ script.header.written ++
      (script.statement ++ script.after) := by
    rw [← text_of_ofText? found, text_eq_statement, noRemark]
    simp
  rw [List.append_assoc] at cut
  rw [text_eq, List.append_assoc, List.append_assoc script.statement]
  exact ofText?_of_cut found finished.semicolon cut

end Script

namespace Definition

open Text

variable {text reference literal comment : Text} {definition : Definition}

/-- **Comments round-trip.** When no comment statement opens in a text from its definition on, and
the definition ends in a semicolon that only white space follows, a comment statement that is put
after the text is read back: the comment is the one that was written, up to the kind of line breaks,
what follows the statement is the text after the definition, and everything else is as without the
statement. -/
theorem ofText?_onFunction (parsed : ofText? text = some definition)
    (finished : definition.script.Finished)
    (quiet : Remark.OpensNowhere text definition.script.before.length text.length)
    (refers : ∀ c ∈ reference, Remark.isReferenceChar c = true)
    (writes : Remark.Writes literal comment) (suffix : Text) :
    ∃ extended, ofText? (text ++ (Remark.onFunction reference literal ++ suffix)) = some extended ∧
      extended.comment = some comment.normalize ∧ extended.after = suffix.trimBlankLines ∧
      extended.Continues definition definition.script.after ∧
      extended.SameOptions definition := by
  obtain ⟨script, found, rfl⟩ := Option.map_eq_some_iff.mp parsed
  have foundToo := Script.ofText?_append_onFunction found finished quiet refers writes suffix
  have optionText : script.leading ++ ' ' :: (script.trailing ++ script.after) =
      script.optionText ++ script.after := by simp [Script.optionText]
  refine ⟨_, congrArg (Option.map ofScript) foundToo, rfl, rfl, ?_, ?_⟩
  · exact ⟨(Options.kind_attributes _ _).trans (Options.kind_attributes _ _).symm, rfl, rfl, rfl,
      rfl, rfl, optionText⟩
  · have blank : ∀ c ∈ script.after.maskComments, isBlank c = true := by
      intro c member
      rcases mem_of_mem_maskComments member with inside | rfl
      · exact finished.blank c inside
      · decide
    have same : Options.ofText (script.leading ++ ' ' :: (script.trailing ++ script.after)) =
        Options.ofText script.optionText := by
      rw [optionText]
      exact Script.ofText_optionText finished.semicolon found blank
    exact ⟨congrArg Options.returns same, congrArg Options.language same,
      congrArg Options.securityDefiner same,
      congrArg (·.attributes script.header.kind) same⟩

/-- A comment that holds quotes, line breaks and a comment statement is read back. -/
theorem ofText?_onFunction_nested :
    let comment : Text := "it's\r\n; COMMENT ON FUNCTION f() IS 'no';".toList
    ofText? constantOne.text = some (ofScript constantOne) ∧ constantOne.Finished ∧
      Remark.OpensNowhere constantOne.text constantOne.before.length constantOne.text.length ∧
      ∃ extended, ofText? (constantOne.text ++
          (Remark.onFunction "s.f(int, text)".toList comment.double.quote ++ "\nx".toList)) =
            some extended ∧
        extended.comment = some "it's\n; COMMENT ON FUNCTION f() IS 'no';".toList ∧
        extended.after = "x".toList ∧ extended.SameOptions (ofScript constantOne) := by
  intro comment
  have parsed : ofText? constantOne.text = some (ofScript constantOne) := by decide +kernel
  have finished : constantOne.Finished := by decide +kernel
  have quiet : Remark.OpensNowhere constantOne.text constantOne.before.length
      constantOne.text.length := by decide +kernel
  have refers : "s.f(int, text)".toList.all Remark.isReferenceChar = true := by decide +kernel
  have normal : comment.normalize = "it's\n; COMMENT ON FUNCTION f() IS 'no';".toList := by
    decide +kernel
  have trimmed : trimBlankLines "\nx".toList = "x".toList := by decide +kernel
  obtain ⟨extended, parsedToo, comments, after, _, same⟩ := ofText?_onFunction parsed finished quiet
    (List.all_eq_true.mp refers) (.quoted comment) "\nx".toList
  exact ⟨parsed, finished, quiet, extended, parsedToo, comments.trans (congrArg some normal),
    after.trans trimmed, same⟩

end Definition

end RoutineScripts
