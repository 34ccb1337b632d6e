import RoutineScripts.Proofs.Lexical.Refinement
import RoutineScripts.Proofs.Routine.Keyword

/-!
# Body readers and the scanner agree

The readers of body literals look for the delimiter that closes a literal and never consult the
scanner. `Literal.Fits` says what they read in terms of the text alone. A literal that fits is a
sequence of tokens of the lexical grammar (`Literal.tokens`), and a scan in plain text is in plain
text again at its end (`Literal.Fits.settles`).

The main statement is `Literal.locateAt?_agrees`. It covers both answers of the search for a body:
the literal that is found, and the reasons why none is.
-/

namespace RoutineScripts

namespace Text

/-- Writes each single quote twice. -/
def double (text : Text) : Text :=
  text.flatMap fun c => if c = '\'' then ['\'', '\''] else [c]

/-- Turning doubled quotes into single ones loses nothing. -/
theorem double_undouble {content : Text} (doubled : QuotesDoubled content) :
    content.undouble.double = content := by
  induction doubled with
  | nil => rfl
  | @char c rest differs _ ih =>
      have step : undouble (c :: rest) = c :: undouble rest :=
        undouble.eq_3 _ _ fun _ quote _ => differs quote
      rw [step, double, List.flatMap_cons, if_neg differs]
      exact congrArg (c :: ·) ih
  | @pair rest _ ih =>
      have step : undouble ('\'' :: '\'' :: rest) = '\'' :: undouble rest := rfl
      rw [step, double, List.flatMap_cons, if_pos rfl]
      exact congrArg ('\'' :: '\'' :: ·) ih

/-- A closed string literal leaves the scan in plain text. -/
theorem settles_quote {content rest : Text} (fits : (Token.literal content true).Fits rest) :
    Settles content.quote rest := by
  obtain ⟨⟨last, reached⟩, _⟩ :=
    ScanState.inside_of_quotesDoubled fits.1 ('\'' :: rest) .normal
  have step : Mode.singleQuoted.advance '\'' rest = ⟨.normal, 0⟩ := by
    simp [Mode.advance, fits.2]
  have opened : ScanState.start.after ('\'' :: content) ('\'' :: rest) =
      ScanState.after ⟨.normal, .singleQuoted, 0⟩ content ('\'' :: rest) := rfl
  rw [Settles, quote, ScanState.after_append, List.singleton_append, opened, reached]
  simp [ScanState.after, ScanState.next, step, ScanState.IsPlain]

end Text

/-- A comma between two string literals, with white space around it. -/
def IsSeparator (separator : Text) : Prop :=
  ∃ gap space, separator = gap ++ ',' :: space ∧ (∀ c ∈ gap, isAsciiBlank c = true) ∧
    ∀ c ∈ space, isAsciiBlank c = true

/-- What joins two strings opens nothing. -/
theorem IsSeparator.plain {separator : Text} (separates : IsSeparator separator) :
    ∀ c ∈ separator, c ∉ ['-', '/', '$', '\'', '"'] := by
  obtain ⟨gap, space, rfl, blankGap, blankSpace⟩ := separates
  intro c member
  rcases List.mem_append.mp member with inGap | inSpace
  · exact Literal.plain_of_isAsciiBlank (blankGap c inGap)
  · rcases List.mem_cons.mp inSpace with rfl | inSpace
    · decide
    · exact Literal.plain_of_isAsciiBlank (blankSpace c inSpace)

theorem IsSeparator.ne_nil {separator : Text} (separates : IsSeparator separator) :
    separator ≠ [] := by
  obtain ⟨gap, space, rfl, _⟩ := separates
  simp

namespace Token

/-- Plain characters in front of a text are tokens of their own. -/
theorem segments_plain {front back : Text} {others : List Token}
    (plain : ∀ c ∈ front, c ∉ ['-', '/', '$', '\'', '"']) (segments : Segments others back) :
    Segments (front.map Token.plain ++ others) (front ++ back) := by
  induction front with
  | nil => exact segments
  | cons c front ih =>
      obtain ⟨here, later⟩ := List.forall_mem_cons.mp plain
      exact ⟨front ++ back, rfl, fits_plain here _, ih later⟩

end Token

namespace Literal

open Text

/-- The tokens of a body literal. -/
def tokens : Literal → List Token
  | dollar tag content => [.bracketed (.dollar tag) content true]
  | quoted content none => [.literal content true]
  | quoted content (some (separator, symbol)) =>
      .literal content true :: (separator.map .plain ++ [.literal symbol true])

/-- A body literal may stand where `rest` follows it. A dollar-quoted one ends with the first
occurrence of its tag, and a string literal with the first quote that is not doubled. -/
def Fits : Literal → Text → Prop
  | dollar tag content, _ => IsDollarTag tag ∧ FirstAfter tag content (content ++ tag)
  | quoted content none, rest => QuotesDoubled content ∧ rest.head? ≠ some '\''
  | quoted content (some (separator, symbol)), rest =>
      QuotesDoubled content ∧ IsSeparator separator ∧ QuotesDoubled symbol ∧
        rest.head? ≠ some '\''

/-- A text that is a body literal without its end: the literal is opened and not closed, or it is
closed and its link symbol is not. -/
def Unterminated (text : Text) : Prop :=
  (∃ tag content, IsDollarTag tag ∧ ¬ tag <:+: content ∧ text = tag ++ content) ∨
    (∃ content, QuotesDoubled content ∧ text = '\'' :: content) ∨
    ∃ content separator symbol, QuotesDoubled content ∧ IsSeparator separator ∧
      QuotesDoubled symbol ∧ text = content.quote ++ separator ++ '\'' :: symbol

/-! ### What the readers read -/

/-- A link symbol is not there, or it is read after what joins it to the first string. -/
theorem readLink?_cases (text : Text) :
    readLink? text = some (none, text) ∨
      ∃ separator opened, IsSeparator separator ∧ text = separator ++ '\'' :: opened ∧
        readLink? text =
          (splitQuoted? opened).map fun (symbol, after) => (some (separator, symbol), after) := by
  have blank (list : Text) : ∀ c ∈ list.takeWhile isAsciiBlank, isAsciiBlank c = true :=
    List.all_eq_true.mp List.all_takeWhile
  unfold readLink?
  split
  case h_1 rest comma =>
    split
    case h_1 opened quote =>
      refine Or.inr ⟨text.takeWhile isAsciiBlank ++ ',' :: rest.takeWhile isAsciiBlank, opened,
        ⟨_, _, rfl, blank text, blank rest⟩, ?_, rfl⟩
      calc text = text.takeWhile isAsciiBlank ++ ',' :: rest := by
            rw [← comma, List.takeWhile_append_dropWhile]
        _ = text.takeWhile isAsciiBlank
              ++ ',' :: (rest.takeWhile isAsciiBlank ++ '\'' :: opened) := by
            rw [← quote, List.takeWhile_append_dropWhile]
        _ = _ := by simp
    case h_2 => exact Or.inl rfl
  case h_2 => exact Or.inl rfl

/-- A literal that is read fits before what follows it. -/
theorem fits_of_read? {text after : Text} {literal : Literal}
    (found : read? text = some (literal, after)) : literal.Fits after := by
  cases literal with
  | dollar tag content =>
      obtain ⟨isTag, _, first⟩ := read?_eq_dollar_iff.mp found
      exact ⟨isTag, first⟩
  | quoted content link =>
      unfold read? at found
      split at found
      case h_1 =>
        unfold readDollar? at found
        split at found
        case h_1 => cases found
        case h_2 => simp at found
      case h_2 opened =>
        split at found
        case h_1 => cases found
        case h_2 inner rest closing =>
          simp only [Option.map_eq_some_iff, Prod.exists, Prod.mk.injEq, quoted.injEq] at found
          obtain ⟨_, _, linked, ⟨rfl, rfl⟩, rfl⟩ := found
          obtain ⟨_, doubled, single⟩ := splitQuoted?_eq_some_iff.mp closing
          rcases readLink?_cases rest with alone | ⟨separator, more, separates, rfl, second⟩
          · rw [alone] at linked
            cases linked
            exact ⟨doubled, single⟩
          · simp only [second, Option.map_eq_some_iff, Prod.exists, Prod.mk.injEq] at linked
            obtain ⟨symbol, tail, closed, rfl, rfl⟩ := linked
            obtain ⟨_, doubledToo, singleToo⟩ := splitQuoted?_eq_some_iff.mp closed
            exact ⟨doubled, separates, doubledToo, singleToo⟩
      case h_3 => cases found

/-- A dollar tag without a literal is never closed. -/
theorem unterminated_of_readDollar? {text tag : Text} (opened : dollarTag? text = some tag)
    (missed : readDollar? text = none) : Unterminated text := by
  obtain ⟨isTag, rest, rfl⟩ := dollarTag?_eq_some_iff.mp opened
  rw [readDollar?, opened] at missed
  simp only [List.drop_left, Option.map_eq_none_iff] at missed
  refine Or.inl ⟨tag, rest, isTag, fun inside => ?_, rfl⟩
  have occurs := occursIn_iff.mpr inside
  rw [occursIn, missed] at occurs
  cases occurs

/-- **Why no literal is read.** None is opened, or one is opened and not closed. -/
theorem unterminated_of_read? {text : Text} (missed : read? text = none) :
    (dollarTag? text = none ∧ text.head? ≠ some '\'') ∨ Unterminated text := by
  unfold read? at missed
  split at missed
  case h_1 rest =>
    cases opened : dollarTag? ('$' :: rest) with
    | none => exact Or.inl ⟨rfl, by simp⟩
    | some tag => exact Or.inr (unterminated_of_readDollar? opened missed)
  case h_2 opened =>
    refine Or.inr (Or.inr ?_)
    split at missed
    case h_1 unclosed => exact Or.inl ⟨opened, splitQuoted?_eq_none_iff.mp unclosed, rfl⟩
    case h_2 content rest closing =>
      obtain ⟨rfl, doubled, _⟩ := splitQuoted?_eq_some_iff.mp closing
      rw [Option.map_eq_none_iff] at missed
      rcases readLink?_cases rest with alone | ⟨separator, symbol, separates, rfl, second⟩
      · rw [alone] at missed
        cases missed
      · rw [second, Option.map_eq_none_iff] at missed
        exact Or.inr ⟨content, separator, symbol, doubled, separates,
          splitQuoted?_eq_none_iff.mp missed, by simp [quote]⟩
  case h_3 noDollar noQuote =>
    cases text with
    | nil => exact Or.inl ⟨rfl, by simp⟩
    | cons c rest =>
        have quote : c ≠ '\'' := by
          rintro rfl
          exact noQuote rest rfl
        have dollar : c ≠ '$' := by
          rintro rfl
          exact noDollar rest rfl
        exact Or.inl ⟨by simp [dollarTag?_cons, dollar], by simpa using quote⟩

/-! ### What the scanner makes of it -/

/-- The first of two string literals ends where the separator starts. -/
theorem fits_literal {content separator : Text} (doubled : QuotesDoubled content)
    (separates : IsSeparator separator) (rest : Text) :
    (Token.literal content true).Fits (separator ++ rest) := by
  refine ⟨doubled, fun quote => ?_⟩
  obtain ⟨c, others, rfl⟩ := List.exists_cons_of_ne_nil separates.ne_nil
  obtain rfl : c = '\'' := by simpa using quote
  exact absurd (separates.plain '\'' List.mem_cons_self) (by decide)

/-- The tokens of a literal are those of the text with it. -/
theorem Fits.segments {literal : Literal} {rest : Text} {others : List Token}
    (fits : literal.Fits rest) (segments : Token.Segments others rest) :
    Token.Segments (literal.tokens ++ others) (literal.written ++ rest) := by
  cases literal with
  | dollar tag content => exact ⟨rest, rfl, fits, segments⟩
  | quoted content link =>
      cases link with
      | none => exact ⟨rest, by simp [written, linkText, quote, Token.written], fits, segments⟩
      | some pair =>
          obtain ⟨separator, symbol⟩ := pair
          obtain ⟨doubled, separates, doubledToo, single⟩ := fits
          have second : Token.Segments (.literal symbol true :: others) (symbol.quote ++ rest) :=
            ⟨rest, rfl, ⟨doubledToo, single⟩, segments⟩
          have gap := Token.segments_plain separates.plain second
          refine ⟨separator ++ (symbol.quote ++ rest), ?_, fits_literal doubled separates _, ?_⟩
          · simp [written, linkText, quote, Token.written]
          · simpa [tokens] using gap

/-- **A body literal is read through.** It leaves the scan in plain text. -/
theorem Fits.settles {literal : Literal} {rest : Text} (fits : literal.Fits rest) :
    Settles literal.written rest := by
  cases literal with
  | dollar tag content => exact (settles_dollar fits.1 fits.2 rest).1
  | quoted content link =>
      cases link with
      | none => simpa [written, linkText] using settles_quote fits
      | some pair =>
          obtain ⟨separator, symbol⟩ := pair
          obtain ⟨doubled, separates, doubledToo, single⟩ := fits
          have first := settles_quote (fits_literal doubled separates (symbol.quote ++ rest))
          rw [← List.append_assoc] at first
          have between := settles_of_plain separates.plain (symbol.quote ++ rest)
          have second : Settles symbol.quote rest := settles_quote ⟨doubledToo, single⟩
          exact first.append (between.append second)

/-! ### The search for a body -/

/-- A body literal is located after the first keyword and white space, when it can be read there. -/
theorem locate?_eq_some_iff {previous : Option Char} {text leading after : Text}
    {literal : Literal} :
    locate? previous text = some (leading, literal, after) ↔
      ∃ words rest, splitAs? previous 0 text.scan = some (words, rest) ∧
        leading = words ++ rest.takeWhile isAsciiBlank ∧
        read? (rest.dropWhile isAsciiBlank) = some (literal, after) := by
  unfold locate?
  cases splitAs? previous 0 text.scan with
  | none => simp
  | some parts =>
      obtain ⟨words, rest⟩ := parts
      simp only [Option.map_eq_some_iff, Prod.exists, Prod.mk.injEq, Option.some.injEq]
      constructor
      · rintro ⟨_, _, read, rfl, rfl, rfl⟩
        exact ⟨words, rest, ⟨rfl, rfl⟩, rfl, read⟩
      · rintro ⟨_, _, ⟨rfl, rfl⟩, rfl, read⟩
        exact ⟨literal, after, read, rfl, rfl, rfl⟩

/-- What leads up to a body literal settles, and the literal fits where it stands. -/
theorem settles_of_locate? {previous : Option Char} {text leading after : Text}
    {literal : Literal} (found : locate? previous text = some (leading, literal, after)) :
    Settles leading (literal.written ++ after) ∧ literal.Fits after := by
  obtain ⟨words, rest, keyword, rfl, read⟩ := locate?_eq_some_iff.mp found
  have fits := fits_of_read? read
  refine ⟨?_, fits⟩
  have shape : rest = rest.takeWhile isAsciiBlank ++ (literal.written ++ after) := by
    rw [← eq_append_of_read? read, List.takeWhile_append_dropWhile]
  have more : rest ≠ [] := by
    rintro rfl
    cases read
  have settles := (settles_of_splitAs? keyword more rest rfl).1
  rw [shape] at settles
  have blank : ∀ c ∈ rest.takeWhile isAsciiBlank, isAsciiBlank c = true :=
    List.all_eq_true.mp List.all_takeWhile
  have plain : ∀ c ∈ rest.takeWhile isAsciiBlank, c ∉ ['-', '/', '$', '\'', '"'] :=
    fun c member => plain_of_isAsciiBlank (blank c member)
  exact settles.append (settles_of_plain plain _)

/-- A character that an offset cuts does not extend a word. -/
theorem locate?_of_separates {c : Char} (separates : isIdentifierChar c = false) (text : Text) :
    locate? (some c) text = locate? none text := by
  have keyword : splitAs? (some c) 0 text.scan = splitAs? none 0 text.scan := by
    cases text.scan with
    | nil => rfl
    | cons glyph rest =>
        have same (front : Text) : keywordAt (some c) front ['A', 'S'] =
            keywordAt none front ['A', 'S'] := by
          simp [keywordAt, separates]
        simp only [splitAs?, same]
  rw [locate?, locate?, keyword]

/-- **A search from any byte offset.** It reads the whole characters after the offset, or there is
nothing to read. -/
theorem locateAt?_cases {text rest : Text} {start cut : Nat}
    (left : text.dropBytes start = (cut, rest)) :
    (locateAt? text start = none ∧ text.topLevelPositions start = []) ∨
      ∃ base, text = base ++ rest ∧ base.byteLength = start + cut ∧
        locateAt? text start =
          (locate? base.getLast? rest).map fun (before, literal, _) =>
            (literal, (base ++ before).byteLength,
              (base ++ before ++ literal.written).byteLength) := by
  rcases dropBytes_cases left with ⟨rfl, front, rfl, size⟩ | ⟨rfl, rfl, _⟩ |
    ⟨_, front, c, rfl, before, size⟩
  · refine Or.inr ⟨front, rfl, size, ?_⟩
    rw [locateAt?, left, ← size, splitAtByte?_append]
    simp [Nat.add_assoc]
  · refine Or.inl ⟨?_, ?_⟩
    · rw [locateAt?, left]
      rfl
    · rw [topLevelPositions, left]
      rfl
  · have several : isIdentifierChar c = false := by
      cases identifier : isIdentifierChar c with
      | false => rfl
      | true =>
          have single := utf8Size_of_isIdentifierChar identifier
          omega
    have whole : (front ++ [c]).byteLength = start + cut := by simpa using size
    have inside : (front ++ c :: rest).splitAtByte? start = none :=
      splitAtByte?_of_cut left (Nat.le_refl start) (by omega)
    refine Or.inr ⟨front ++ [c], by simp, whole, ?_⟩
    rw [List.getLast?_append, List.getLast?_singleton, Option.some_or, locate?_of_separates several,
      locateAt?, left, inside]
    simp only [byteLength_append _ (written _), byteLength_append (front ++ [c]), whole]

/-- A body literal between `front` and `back`, as the scanner sees it: the scan is in plain text
where the literal starts, the next tokens are those of the literal, and the scan is in plain text
where it ends. The text of a string literal is its content with the quotes written once. -/
structure Agrees (front : Text) (literal : Literal) (back : Text) : Prop where
  opens : Settles front (literal.written ++ back)
  closes : Settles (front ++ literal.written) back
  fits : literal.Fits back
  segments : ∀ others, Token.Segments others back →
    Token.Segments (literal.tokens ++ others) (literal.written ++ back)
  dollar : ∀ tag content, literal = .dollar tag content →
    literal.written = tag ++ content ++ tag ∧ literal.text = content.trimBlankLines
  quoted : ∀ content link, literal = .quoted content link →
    ∃ value : Text, content = value.double ∧ literal.text = value.trimBlankLines

/-- Reasons for a text to have no body literal: there is no keyword of a body, or the first one is
followed neither by a dollar tag nor by a quote, or the literal that it introduces is not
closed. -/
def Missing (text : Text) (start : Nat) : Prop :=
  (∀ place, ¬ text.IsBodyKeyword start place) ∨
    ∃ place, text.IsFirstBodyKeyword start place ∧
      ((text.dollarTagAt? (text.skipBlanks (place + 2)) = none ∧
          text.charAt? (text.skipBlanks (place + 2)) ≠ some '\'') ∨
        ∃ front rest, text.splitAtByte? (text.skipBlanks (place + 2)) = some (front, rest) ∧
          Unterminated rest)

/-- A literal that is located is what the scanner sees. -/
theorem agrees_of_locate? {previous : Option Char} {text leading after : Text}
    {literal : Literal} (found : locate? previous text = some (leading, literal, after)) :
    Agrees leading literal after := by
  obtain ⟨opens, fits⟩ := settles_of_locate? found
  refine ⟨opens, opens.append fits.settles, fits, fun others => fits.segments, ?_, ?_⟩
  · rintro tag content rfl
    exact ⟨rfl, rfl⟩
  · rintro content link rfl
    have doubled : QuotesDoubled content := by
      cases link <;> exact fits.1
    exact ⟨content.undouble, (double_undouble doubled).symm, rfl⟩

/-- What is skipped after a boundary is the white space there. -/
theorem skipBlanks_append (front back : Text) :
    (front ++ back).skipBlanks front.byteLength =
      (front ++ back.takeWhile isAsciiBlank).byteLength := by
  rw [skipBlanks, splitAtByte?_append, byteLength_append]

/-- A literal that cannot be read is missing. -/
theorem missing_of_read? {front rest : Text} {start place : Nat}
    (first : (front ++ rest).IsFirstBodyKeyword start place) (past : place + 2 = front.byteLength)
    (missed : read? (rest.dropWhile isAsciiBlank) = none) : Missing (front ++ rest) start := by
  have opening : (front ++ rest).splitAtByte? ((front ++ rest).skipBlanks (place + 2)) =
      some (front ++ rest.takeWhile isAsciiBlank, rest.dropWhile isAsciiBlank) := by
    rw [past, skipBlanks_append]
    refine splitAtByte?_eq_some_iff.mpr ⟨?_, rfl⟩
    rw [List.append_assoc, List.takeWhile_append_dropWhile]
  refine Or.inr ⟨place, first, ?_⟩
  rcases unterminated_of_read? missed with ⟨noTag, noQuote⟩ | unclosed
  · exact Or.inl ⟨by rw [dollarTagAt?, opening]; exact noTag,
      by rw [charAt?, opening]; exact noQuote⟩
  · exact Or.inr ⟨_, _, opening, unclosed⟩

/-- **The body reader agrees with the scanner.** A body literal that is found from `start` on is
read as the scanner reads it (`Literal.Agrees`) and stands after the first keyword of a body.
Otherwise there is a reason for having none (`Literal.Missing`). -/
theorem locateAt?_agrees (text : Text) (start : Nat) :
    match locateAt? text start with
    | some (literal, first, last) =>
        ∃ front back, (text.dropBytes start).2 = front ++ (literal.written ++ back) ∧
          first = start + (text.dropBytes start).1 + front.byteLength ∧
          last = first + literal.written.byteLength ∧ Agrees front literal back ∧
          ∃ place, text.IsFirstBodyKeyword start place ∧ first = text.skipBlanks (place + 2)
    | none => Missing text start := by
  obtain ⟨⟨cut, rest⟩, left⟩ : ∃ pair, text.dropBytes start = pair := ⟨_, rfl⟩
  rcases locateAt?_cases left with ⟨missed, nowhere⟩ | ⟨base, rfl, size, answer⟩
  · rw [missed]
    refine Or.inl fun place keyword => ?_
    rw [IsBodyKeyword, nowhere] at keyword
    exact absurd keyword.1 List.not_mem_nil
  · cases keyword : splitAs? base.getLast? 0 rest.scan with
    | none =>
        rw [answer, locate?, keyword]
        exact Or.inl (not_isBodyKeyword_of_splitAs? left rfl size keyword)
    | some parts =>
        obtain ⟨words, others⟩ := parts
        obtain ⟨place, isFirst, past⟩ := isFirstBodyKeyword_of_splitAs? left rfl size keyword
        have tail : base ++ rest = base ++ words ++ others := by
          have parts := eq_append_of_splitAs? keyword
          rw [ofGlyphs_scan] at parts
          rw [parts, List.append_assoc]
        cases read : read? (others.dropWhile isAsciiBlank) with
        | none =>
            have missed : locateAt? (base ++ rest) start = none := by
              rw [answer, locate?, keyword]
              simp [read]
            rw [missed]
            rw [tail] at isFirst ⊢
            exact missing_of_read? isFirst past read
        | some found =>
            obtain ⟨literal, after⟩ := found
            have located : locate? base.getLast? rest =
                some (words ++ others.takeWhile isAsciiBlank, literal, after) :=
              locate?_eq_some_iff.mpr ⟨words, others, keyword, rfl, read⟩
            rw [answer, located, left]
            refine ⟨words ++ others.takeWhile isAsciiBlank, after, ?_, ?_, ?_,
              agrees_of_locate? located, place, isFirst, ?_⟩
            · simpa using eq_append_of_locate? located
            · simp [size]
            · exact byteLength_append _ _
            · rw [past, tail, skipBlanks_append, List.append_assoc]

end Literal

end RoutineScripts
