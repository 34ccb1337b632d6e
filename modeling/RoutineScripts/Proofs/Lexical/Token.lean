import RoutineScripts.Proofs.Lexical.Structure
import RoutineScripts.Proofs.Text.LineEnding
import RoutineScripts.Routine.Literal

/-!
# The lexical grammar

A script is a sequence of tokens: comments, quoted spans and plain characters. The grammar is given
without the scanner. `Token.Fits` says when a token may stand before a given rest of a text, and
`Token.Segments` cuts a text into tokens from left to right. A token that is not closed runs to the
end of the text.

Block comments, dollar-quoted spans and quoted names all end at the next occurrence of a fixed
delimiter, so they are one kind of token with a `Bracket` as parameter. String literals differ,
because a doubled quote belongs to the literal.

Every text has a segmentation (`Token.exists_segments`), and only one (`Token.segments_unique`).
-/

namespace RoutineScripts

/-- The kinds of token that the next occurrence of a fixed delimiter closes. -/
inductive Bracket
  | block
  | dollar (tag : Text)
  | name
  deriving DecidableEq, Repr

namespace Bracket

/-- The text that opens a token of this kind. -/
def opener : Bracket → Text
  | block => ['/', '*']
  | dollar tag => tag
  | name => ['"']

/-- The text that closes a token of this kind. -/
def closer : Bracket → Text
  | block => ['*', '/']
  | dollar tag => tag
  | name => ['"']

/-- The tag of a dollar-quoted span is a tag. -/
def Proper : Bracket → Prop
  | dollar tag => IsDollarTag tag
  | _ => True

end Bracket

/-- Every single quote of a text is one of a doubled pair. -/
inductive QuotesDoubled : Text → Prop
  | nil : QuotesDoubled []
  | char {c : Char} {rest : Text} : c ≠ '\'' → QuotesDoubled rest → QuotesDoubled (c :: rest)
  | pair {rest : Text} : QuotesDoubled rest → QuotesDoubled ('\'' :: '\'' :: rest)

/-- The texts that open a token other than a plain character. -/
def IsOpener (opener : Text) : Prop :=
  opener = ['-', '-'] ∨ opener = ['/', '*'] ∨ IsDollarTag opener ∨ opener = ['\''] ∨
    opener = ['"']

/-- A token with the text it covers. Of a token with delimiters the content between them is kept,
and whether it is closed. -/
inductive Token
  | plain (c : Char)
  | lineComment (content : Text)
  | bracketed (bracket : Bracket) (content : Text) (closed : Bool)
  | literal (content : Text) (closed : Bool)
  deriving DecidableEq, Repr

namespace Token

/-- The text that a token covers. -/
def written : Token → Text
  | plain c => [c]
  | lineComment content => '-' :: '-' :: content
  | bracketed bracket content closed =>
      bracket.opener ++ content ++ if closed then bracket.closer else []
  | literal content closed => '\'' :: content ++ if closed then ['\''] else []

/-- Whether a token is a comment. -/
def isComment : Token → Bool
  | lineComment _ => true
  | bracketed .block _ _ => true
  | _ => false

/-- A token may stand where `rest` follows it. A plain character opens nothing. A line comment ends
before the next line break, a bracketed token with the first delimiter that closes it, and a
literal with the first quote that is not doubled. -/
def Fits : Token → Text → Prop
  | plain c, rest => ∀ opener, IsOpener opener → ¬ opener <+: c :: rest
  | lineComment content, rest =>
      (∀ c ∈ content, isBreak c = false) ∧ ∀ c ∈ rest.head?, isBreak c = true
  | bracketed bracket content true, _ =>
      bracket.Proper ∧ Text.FirstAfter bracket.closer content (content ++ bracket.closer)
  | bracketed bracket content false, rest =>
      bracket.Proper ∧ ¬ bracket.closer <:+: content ∧ rest = []
  | literal content true, rest => QuotesDoubled content ∧ rest.head? ≠ some '\''
  | literal content false, rest => QuotesDoubled content ∧ rest = []

/-- Tokens that make up a text from left to right. -/
def Segments : List Token → Text → Prop
  | [], text => text = []
  | token :: tokens, text =>
      ∃ rest, text = token.written ++ rest ∧ token.Fits rest ∧ Segments tokens rest

end Token

namespace Text

/-- A doubled quote goes on inside a literal. -/
theorem splitQuoted?_pair (rest : Text) :
    splitQuoted? ('\'' :: '\'' :: rest) =
      (splitQuoted? rest).map fun (content, after) => ('\'' :: '\'' :: content, after) := rfl

/-- Any other character goes on inside a literal. -/
theorem splitQuoted?_cons {c : Char} (differs : c ≠ '\'') (rest : Text) :
    splitQuoted? (c :: rest) =
      (splitQuoted? rest).map fun (content, after) => (c :: content, after) := by
  rw [splitQuoted?.eq_3 _ _ (fun _ quote _ => differs quote), if_neg differs]

/-- A single quote ends a literal. -/
theorem splitQuoted?_quote {rest : Text} (single : rest.head? ≠ some '\'') :
    splitQuoted? ('\'' :: rest) = some ([], rest) := by
  cases rest with
  | nil => rfl
  | cons d rest =>
      rw [splitQuoted?.eq_3 _ _ (fun _ _ shape => single (by rw [shape]; rfl)), if_pos rfl]

/-- **The end of a literal.** Its content ends before the first quote that is not doubled. -/
theorem splitQuoted?_eq_some_iff {text content after : Text} :
    splitQuoted? text = some (content, after) ↔
      text = content ++ '\'' :: after ∧ QuotesDoubled content ∧ after.head? ≠ some '\'' := by
  constructor
  · intro found
    refine ⟨eq_append_of_splitQuoted? found, ?_⟩
    fun_induction splitQuoted? text generalizing content with
    | case1 => cases found
    | case2 rest ih =>
        simp only [Option.map_eq_some_iff, Prod.exists, Prod.mk.injEq] at found
        obtain ⟨inner, tail, closed, rfl, rfl⟩ := found
        obtain ⟨doubled, single⟩ := ih closed
        exact ⟨.pair doubled, single⟩
    | case3 rest notPair =>
        cases found
        refine ⟨.nil, fun quote => ?_⟩
        obtain ⟨tail, rfl⟩ := List.head?_eq_some_iff.mp quote
        exact notPair tail rfl rfl
    | case4 c rest _ differs ih =>
        simp only [Option.map_eq_some_iff, Prod.exists, Prod.mk.injEq] at found
        obtain ⟨inner, tail, closed, rfl, rfl⟩ := found
        obtain ⟨doubled, single⟩ := ih closed
        exact ⟨.char differs doubled, single⟩
  · rintro ⟨rfl, doubled, single⟩
    induction doubled with
    | nil => exact splitQuoted?_quote single
    | char differs _ ih => rw [List.cons_append, splitQuoted?_cons differs, ih]; rfl
    | pair _ ih => rw [List.cons_append, List.cons_append, splitQuoted?_pair, ih]; rfl

/-- A literal is not closed when all quotes after its opening one are doubled. -/
theorem splitQuoted?_eq_none_iff {text : Text} :
    splitQuoted? text = none ↔ QuotesDoubled text := by
  constructor
  · intro found
    fun_induction splitQuoted? text with
    | case1 => exact .nil
    | case2 rest ih => exact .pair (ih (Option.map_eq_none_iff.mp found))
    | case3 => cases found
    | case4 c rest _ differs ih => exact .char differs (ih (Option.map_eq_none_iff.mp found))
  · intro doubled
    induction doubled with
    | nil => rfl
    | char differs _ ih => rw [splitQuoted?_cons differs, ih]; rfl
    | pair _ ih => rw [splitQuoted?_pair, ih]; rfl

end Text

namespace Token

/-- A plain character is a token before any text. -/
theorem fits_plain {c : Char} (opens : c ∉ ['-', '/', '$', '\'', '"']) (rest : Text) :
    (plain c).Fits rest := by
  rintro opener isOpener ⟨others, split⟩
  rcases isOpener with rfl | rfl | ⟨name, rfl, _⟩ | rfl | rfl <;>
    · obtain ⟨rfl, _⟩ := List.cons.inj split
      simp at opens

theorem written_ne_nil {token : Token} {rest : Text} (fits : token.Fits rest) :
    token.written ≠ [] := by
  cases token with
  | bracketed bracket content closed =>
      have opened : bracket.opener ≠ [] := by
        cases bracket with
        | dollar tag => cases closed <;> exact IsDollarTag.ne_nil fits.1
        | _ => exact List.cons_ne_nil _ _
      simp [written, opened]
  | _ => exact List.cons_ne_nil _ _

/-! ### Every text has a segmentation -/

/-- An opener is that of a bracketed token. -/
theorem exists_bracketed (bracket : Bracket) (proper : bracket.Proper) (tail : Text) :
    ∃ content closed rest, bracket.opener ++ tail =
        (bracketed bracket content closed).written ++ rest ∧
      (bracketed bracket content closed).Fits rest := by
  cases found : Text.splitFirst? bracket.closer tail with
  | some parts =>
      obtain ⟨content, rest⟩ := parts
      obtain ⟨rfl, first⟩ := Text.splitFirst?_eq_some_iff.mp found
      exact ⟨content, true, rest, by simp [written], proper, first.of_append⟩
  | none =>
      refine ⟨tail, false, [], by simp [written], proper, ?_, rfl⟩
      intro inside
      have occurs := Text.occursIn_iff.mpr inside
      rw [Text.occursIn, found] at occurs
      cases occurs

/-- Every text that is not empty starts with a token. -/
theorem exists_fits (c : Char) (tail : Text) :
    ∃ (token : Token) (rest : Text), c :: tail = token.written ++ rest ∧ token.Fits rest := by
  by_cases opens : ∃ opener, IsOpener opener ∧ opener <+: c :: tail
  · obtain ⟨opener, isOpener, others, split⟩ := opens
    rw [← split]
    rcases isOpener with rfl | rfl | isTag | rfl | rfl
    · refine ⟨lineComment (others.takeWhile (!isBreak ·)), others.dropWhile (!isBreak ·), ?_,
        ?_, ?_⟩
      · simp [written]
      · intro d member
        simpa using List.all_eq_true.mp List.all_takeWhile d member
      · intro d first
        have stops := List.head?_dropWhile_not (!isBreak ·) others
        rw [Option.mem_def.mp first] at stops
        simpa using stops
    · obtain ⟨content, closed, rest, whole, fits⟩ :=
        exists_bracketed .block trivial others
      exact ⟨_, rest, whole, fits⟩
    · obtain ⟨content, closed, rest, whole, fits⟩ :=
        exists_bracketed (.dollar opener) isTag others
      exact ⟨_, rest, whole, fits⟩
    · cases found : Text.splitQuoted? others with
      | some parts =>
          obtain ⟨content, rest⟩ := parts
          obtain ⟨rfl, doubled, single⟩ := Text.splitQuoted?_eq_some_iff.mp found
          exact ⟨literal content true, rest, by simp [written], doubled, single⟩
      | none =>
          exact ⟨literal others false, [], by simp [written],
            Text.splitQuoted?_eq_none_iff.mp found, rfl⟩
    · obtain ⟨content, closed, rest, whole, fits⟩ :=
        exists_bracketed .name trivial others
      exact ⟨_, rest, whole, fits⟩
  · exact ⟨plain c, tail, rfl, fun opener isOpener front => opens ⟨opener, isOpener, front⟩⟩

/-- **The grammar is complete.** Every text splits into tokens. -/
theorem exists_segments (text : Text) : ∃ tokens, Segments tokens text := by
  -- A token takes at least one character, so what is left is shorter.
  induction length : text.length using Nat.strongRecOn generalizing text with
  | ind size ih =>
      cases text with
      | nil => exact ⟨[], rfl⟩
      | cons c tail =>
          obtain ⟨token, rest, whole, fits⟩ := exists_fits c tail
          have shorter : rest.length < size := by
            have nonempty := List.length_pos_iff.mpr (written_ne_nil fits)
            rw [← length, whole, List.length_append]
            omega
          obtain ⟨tokens, segments⟩ := ih rest.length shorter rest rfl
          exact ⟨token :: tokens, rest, whole, fits, segments⟩

/-! ### No text has two segmentations -/

/-- The mode in which the content of a token is read. -/
def mode : Token → Mode
  | plain _ => .normal
  | lineComment _ => .lineComment
  | bracketed .block _ _ => .blockComment
  | bracketed (.dollar tag) _ _ => .dollarQuoted tag
  | bracketed .name _ _ => .doubleQuoted
  | literal _ _ => .singleQuoted

/-- The number of characters that are taken together where a token opens. -/
def taken : Token → Nat
  | lineComment _ => 2
  | bracketed .block _ _ => 2
  | bracketed (.dollar tag) _ _ => tag.length
  | _ => 0

/-- A token fits only with proper brackets. -/
theorem Fits.proper {bracket : Bracket} {content rest : Text} {closed : Bool}
    (fits : (bracketed bracket content closed).Fits rest) : bracket.Proper := by
  cases closed <;> exact fits.1

/-- A plain character keeps the mode. -/
theorem advance_plain {c : Char} {rest : Text} (fits : (plain c).Fits rest) :
    Mode.normal.advance c rest = ⟨.normal, 0⟩ := by
  have refused (opener : Text) (isOpener : IsOpener opener) : ¬ opener <+: c :: rest :=
    fits opener isOpener
  have dash : ¬ (c = '-' ∧ rest.head? = some '-') := by
    rintro ⟨rfl, second⟩
    obtain ⟨others, rfl⟩ := List.head?_eq_some_iff.mp second
    exact refused ['-', '-'] (Or.inl rfl) ⟨others, rfl⟩
  have star : ¬ (c = '/' ∧ rest.head? = some '*') := by
    rintro ⟨rfl, second⟩
    obtain ⟨others, rfl⟩ := List.head?_eq_some_iff.mp second
    exact refused ['/', '*'] (Or.inr (Or.inl rfl)) ⟨others, rfl⟩
  have tag : dollarTag? (c :: rest) = none := by
    cases found : dollarTag? (c :: rest) with
    | none => rfl
    | some tag =>
        obtain ⟨isTag, others, split⟩ := dollarTag?_eq_some_iff.mp found
        exact absurd ⟨others, split.symm⟩ (refused tag (Or.inr (Or.inr (Or.inl isTag))))
  have quote : c ≠ '\'' := by
    rintro rfl
    exact refused ['\''] (Or.inr (Or.inr (Or.inr (Or.inl rfl)))) ⟨rest, rfl⟩
  have double : c ≠ '"' := by
    rintro rfl
    exact refused ['"'] (Or.inr (Or.inr (Or.inr (Or.inr rfl)))) ⟨rest, rfl⟩
  simp only [Mode.advance, if_neg dash, if_neg star, tag, if_neg quote, if_neg double]

/-- A dollar tag is taken together. -/
theorem advance_dollar {tag : Text} (isTag : IsDollarTag tag) :
    ∃ rest, tag = '$' :: rest ∧ ∀ tail,
      Mode.normal.advance '$' (rest ++ tail) = ⟨.dollarQuoted tag, tag.length⟩ := by
  obtain ⟨rest, rfl⟩ : ∃ rest, tag = '$' :: rest := by
    obtain ⟨name, shape, _⟩ := isTag
    exact ⟨_, shape⟩
  refine ⟨rest, rfl, fun tail => ?_⟩
  have read : dollarTag? ('$' :: (rest ++ tail)) = some ('$' :: rest) :=
    dollarTag?_eq_some_iff.mpr ⟨isTag, tail, rfl⟩
  simp [Mode.advance, read]

/-- **Tokens and transitions.** The first transition in front of a token goes into the mode of its
content. -/
theorem Fits.advance {token : Token} {rest : Text} (fits : token.Fits rest) :
    ∃ c tail, token.written ++ rest = c :: tail ∧
      Mode.normal.advance c tail = ⟨token.mode, token.taken⟩ := by
  cases token with
  | plain c => exact ⟨c, rest, rfl, advance_plain fits⟩
  | lineComment content => exact ⟨_, _, rfl, rfl⟩
  | literal content closed => exact ⟨_, _, rfl, rfl⟩
  | bracketed bracket content closed =>
      cases bracket with
      | block => exact ⟨_, _, rfl, rfl⟩
      | name => exact ⟨_, _, rfl, rfl⟩
      | dollar tag =>
          obtain ⟨tail, shape, step⟩ := advance_dollar fits.proper
          refine ⟨'$', tail ++ (content ++ (if closed then tag else []) ++ rest), ?_, step _⟩
          simp [written, Bracket.opener, Bracket.closer, ← List.cons_append, ← shape]

/-- The closer of a token that fits is its first one. -/
theorem splitFirst?_of_fits {bracket : Bracket} {content rest : Text} {closed : Bool}
    (fits : (bracketed bracket content closed).Fits rest) :
    Text.splitFirst? bracket.closer
        (content ++ (if closed then bracket.closer else []) ++ rest) =
      if closed then some (content, rest) else none := by
  cases closed with
  | true => exact Text.splitFirst?_eq_some_iff.mpr ⟨rfl, fits.2.append rest⟩
  | false =>
      obtain ⟨_, nowhere, rfl⟩ := fits
      rw [if_neg Bool.false_ne_true, List.append_nil, List.append_nil]
      cases found : Text.splitFirst? bracket.closer content with
      | none => rfl
      | some parts =>
          have split := Text.eq_append_of_splitFirst? found
          exact absurd ⟨parts.1, parts.2, split.symm⟩ nowhere

/-- The closing quote of a literal that fits is its first one. -/
theorem splitQuoted?_of_fits {content rest : Text} {closed : Bool}
    (fits : (literal content closed).Fits rest) :
    Text.splitQuoted? (content ++ (if closed then ['\''] else []) ++ rest) =
      if closed then some (content, rest) else none := by
  cases closed with
  | true => exact Text.splitQuoted?_eq_some_iff.mpr ⟨by simp, fits⟩
  | false =>
      obtain ⟨doubled, rfl⟩ := fits
      rw [if_neg Bool.false_ne_true, List.append_nil, List.append_nil]
      exact Text.splitQuoted?_eq_none_iff.mpr doubled

/-- A content that is read off the text after an opener determines how its token ends. -/
theorem content_eq {closer first second firstRest secondRest : Text}
    {firstClosed secondClosed : Bool} {read? : Text → Option (Text × Text)}
    (same : first ++ (if firstClosed then closer else []) ++ firstRest =
      second ++ (if secondClosed then closer else []) ++ secondRest)
    (firstRead : read? (first ++ (if firstClosed then closer else []) ++ firstRest) =
      if firstClosed then some (first, firstRest) else none)
    (secondRead : read? (second ++ (if secondClosed then closer else []) ++ secondRest) =
      if secondClosed then some (second, secondRest) else none)
    (firstOpen : firstClosed = false → firstRest = [])
    (secondOpen : secondClosed = false → secondRest = []) :
    first = second ∧ firstClosed = secondClosed := by
  rw [same, secondRead] at firstRead
  cases firstClosed <;> cases secondClosed
  · simpa [firstOpen rfl, secondOpen rfl] using same
  · cases firstRead
  · cases firstRead
  · cases firstRead
    exact ⟨rfl, rfl⟩

/-- **One token.** Only one token fits at the front of a text. -/
theorem eq_of_fits {first second : Token} {firstRest secondRest : Text}
    (fits : first.Fits firstRest) (fitsToo : second.Fits secondRest)
    (same : first.written ++ firstRest = second.written ++ secondRest) : first = second := by
  obtain ⟨c, tail, front, step⟩ := fits.advance
  obtain ⟨d, tailToo, frontToo, stepToo⟩ := fitsToo.advance
  obtain ⟨rfl, rfl⟩ := List.cons.inj ((front.symm.trans same).trans frontToo)
  have modes : first.mode = second.mode := congrArg Step.mode (step.symm.trans stepToo)
  cases first with
  | plain c =>
      cases second with
      | plain d => exact congrArg plain (List.cons.inj same).1
      | bracketed bracket => cases bracket <;> cases modes
      | _ => cases modes
  | lineComment content =>
      cases second with
      | lineComment other =>
          have stops {rest : Text} (ends : ∀ c ∈ rest.head?, isBreak c = true) :
              rest.head?.any (!isBreak ·) = false := by
            cases rest with
            | nil => rfl
            | cons c rest => simpa using ends c rfl
          have read := Recogniser.run_eq_some_iff.mpr
            ⟨rfl, (by simpa using fits.1), stops fits.2⟩
          have readToo := Recogniser.run_eq_some_iff.mpr
            ⟨rfl, (by simpa using fitsToo.1), stops fitsToo.2⟩
          have whole : content ++ firstRest = other ++ secondRest := by
            simpa [written] using same
          rw [whole, readToo] at read
          rw [(Prod.mk.inj (Option.some.inj read)).1]
      | bracketed bracket => cases bracket <;> cases modes
      | _ => cases modes
  | literal content closed =>
      cases second with
      | literal other closedToo =>
          have whole : content ++ (if closed then ['\''] else []) ++ firstRest =
              other ++ (if closedToo then ['\''] else []) ++ secondRest := by
            simpa [written] using same
          obtain ⟨rfl, rfl⟩ := content_eq whole (splitQuoted?_of_fits fits)
            (splitQuoted?_of_fits fitsToo) (by rintro rfl; exact fits.2)
            (by rintro rfl; exact fitsToo.2)
          rfl
      | bracketed bracket => cases bracket <;> cases modes
      | _ => cases modes
  | bracketed bracket content closed =>
      cases second with
      | bracketed bracketToo other closedToo =>
          obtain rfl : bracket = bracketToo := by
            cases bracket <;> cases bracketToo <;> cases modes <;> rfl
          have whole : content ++ (if closed then bracket.closer else []) ++ firstRest =
              other ++ (if closedToo then bracket.closer else []) ++ secondRest := by
            simpa [written] using same
          obtain ⟨rfl, rfl⟩ := content_eq whole (splitFirst?_of_fits fits)
            (splitFirst?_of_fits fitsToo) (by rintro rfl; exact fits.2.2)
            (by rintro rfl; exact fitsToo.2.2)
          rfl
      | _ => cases bracket <;> cases modes

/-- **The grammar is unambiguous.** A text splits into tokens in one way only. -/
theorem segments_unique {first second : List Token} {text : Text}
    (segments : Segments first text) (segmentsToo : Segments second text) : first = second := by
  induction first generalizing second text with
  | nil =>
      cases second with
      | nil => rfl
      | cons token tokens =>
          obtain ⟨rest, split, fits, _⟩ := segmentsToo
          rw [show text = [] from segments, List.nil_eq, List.append_eq_nil_iff] at split
          exact absurd split.1 (written_ne_nil fits)
  | cons token tokens ih =>
      obtain ⟨rest, rfl, fits, others⟩ := segments
      cases second with
      | nil =>
          have empty := (List.append_eq_nil_iff.mp segmentsToo).1
          exact absurd empty (written_ne_nil fits)
      | cons tokenToo tokensToo =>
          obtain ⟨restToo, split, fitsToo, othersToo⟩ := segmentsToo
          obtain rfl := eq_of_fits fits fitsToo split
          rw [ih others (List.append_cancel_left split ▸ othersToo)]

end Token

end RoutineScripts
