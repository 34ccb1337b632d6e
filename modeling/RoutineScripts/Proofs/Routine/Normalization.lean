import RoutineScripts.Proofs.Lexical.Normalization
import RoutineScripts.Proofs.Routine.Keyword
import RoutineScripts.Proofs.Routine.Reader
import RoutineScripts.Routine.Header
import RoutineScripts.Routine.Name

/-!
# Parts of a normalised text

Headers, names and body literals are read from a normalised text as they are read from the text
itself, each part with its line breaks normalised (`Header.find?_normalize`,
`QualifiedName.ofText_normalize`, `Literal.locate?_normalize`).
-/

namespace RoutineScripts

open Text

/-- Quotes are doubled after normalization too. -/
theorem QuotesDoubled.normalize {text : Text} (doubled : QuotesDoubled text) :
    QuotesDoubled text.normalize := by
  have quote : isBreak '\'' = false := rfl
  induction doubled with
  | nil => exact .nil
  | @char c rest differs _ ih =>
      rw [normalize_cons_eq]
      rcases unified_cases c rest.head? with ⟨shape, _⟩ | ⟨shape, _⟩ | ⟨shape, _⟩
      · rw [shape]
        exact .char differs ih
      · rw [shape]
        exact ih
      · rw [shape]
        exact .char (by decide) ih
  | pair _ ih =>
      rw [normalize_cons quote, normalize_cons quote]
      exact .pair ih

namespace Text

/-- **String literals ignore the kind of line breaks.** -/
theorem splitQuoted?_normalize (text : Text) :
    splitQuoted? text.normalize =
      (splitQuoted? text).map fun (content, after) => (content.normalize, after.normalize) := by
  have quote : isBreak '\'' = false := rfl
  cases found : splitQuoted? text with
  | none => exact splitQuoted?_eq_none_iff.mpr (splitQuoted?_eq_none_iff.mp found).normalize
  | some parts =>
      obtain ⟨rfl, doubled, single⟩ := splitQuoted?_eq_some_iff.mp found
      refine splitQuoted?_eq_some_iff.mpr ⟨normalize_append_cons quote .., doubled.normalize, ?_⟩
      rwa [Ne, head?_normalize_eq_some_iff quote]

/-- Undoubling keeps the first character. -/
theorem head?_undouble (text : Text) : (undouble text).head? = text.head? := by
  fun_cases undouble text <;> rfl

theorem undouble_cons {c : Char} {rest : Text} (single : c = '\'' → rest.head? ≠ some '\'') :
    undouble (c :: rest) = c :: undouble rest := by
  refine undouble.eq_3 c rest fun tail isQuote shape => single isQuote ?_
  rw [shape, List.head?_cons]

/-- Undoubling quotes commutes with normalization. -/
theorem undouble_normalize (text : Text) :
    undouble text.normalize = (undouble text).normalize := by
  have quote : isBreak '\'' = false := rfl
  induction text using undouble.induct with
  | case1 => rfl
  | case2 rest ih =>
      rw [normalize_cons quote, normalize_cons quote, undouble, undouble, normalize_cons quote, ih]
  | case3 c rest notPair ih =>
      have single : c = '\'' → rest.head? ≠ some '\'' := by
        intro isQuote head
        obtain ⟨tail, rfl⟩ := List.head?_eq_some_iff.mp head
        exact notPair tail isQuote rfl
      rw [undouble_cons single, normalize_cons_eq, normalize_cons_eq, head?_undouble]
      rcases unified_cases c rest.head? with ⟨shape, _⟩ | ⟨shape, _⟩ | ⟨shape, _⟩
      · rw [shape, List.singleton_append, undouble_cons, ih, List.singleton_append]
        intro isQuote
        rw [Ne, head?_normalize_eq_some_iff quote]
        exact single isQuote
      · rw [shape, List.nil_append, List.nil_append, ih]
      · rw [shape, List.singleton_append, undouble_cons (by simp), ih, List.singleton_append]

/-! ### The keyword of a body -/

/-- A word in any letter case is a row of classes. -/
theorem afterCaseless?_eq_each (word text : Text) :
    afterCaseless? word text =
      (Recogniser.each (word.map fun a c => a.toLower == c.toLower) text).map Prod.snd := by
  induction word generalizing text with
  | nil => rfl
  | cons a word ih =>
      cases text with
      | nil => rfl
      | cons c rest =>
          by_cases same : a.toLower = c.toLower
          · simp [afterCaseless?, Recogniser.each, same, ih, Function.comp_def]
          · simp [afterCaseless?, Recogniser.each, same]

/-- The keyword of a body is recognised the same before and after normalization. -/
theorem keywordAt_normalize {previous other : Option Char}
    (alike : other.any isIdentifierChar = previous.any isIdentifierChar) (text : Text) :
    keywordAt other text.normalize ['A', 'S'] = keywordAt previous text ['A', 'S'] := by
  have visible : ∀ test ∈ ['A', 'S'].map fun a (c : Char) => a.toLower == c.toLower,
      test '\n' = false ∧ test '\r' = false := by
    simp only [List.map_cons, List.map_nil, List.forall_mem_cons]
    exact ⟨⟨rfl, rfl⟩, ⟨rfl, rfl⟩, fun _ member => absurd member List.not_mem_nil⟩
  rw [keywordAt, keywordAt, afterCaseless?_eq_each, afterCaseless?_eq_each,
    Recogniser.each_normalize visible, Option.map_map]
  cases Recogniser.each _ text with
  | none => rfl
  | some parts =>
      have ends : parts.2.normalize.head?.any isIdentifierChar =
          parts.2.head?.any isIdentifierChar := any_head?_normalize (by decide) parts.2
      simp only [Option.map_some, Function.comp_apply, alike, ends]

/-- What is known before a glyph when the keyword of a body is looked for: the character before it
and the number of open parentheses. -/
def keywordStep (state : Option Char × Nat) (glyph : Glyph) : Option Char × Nat :=
  (some glyph.char, depthAfter state.2 glyph)

/-- The test by which the keyword of a body is looked for. -/
def keywordTest (state : Option Char × Nat) : List Glyph → Option (Text × Text)
  | [] => none
  | glyph :: rest =>
      if glyph.isTopLevel && state.2 == 0
          && keywordAt state.1 (ofGlyphs ((glyph :: rest).take 3)) ['A', 'S'] then
        some (ofGlyphs ((glyph :: rest).take 2), ofGlyphs ((glyph :: rest).drop 2))
      else
        none

/-- An opening parenthesis goes one deeper, and a closing one goes back. -/
theorem depthAfter_eq (depth : Nat) (glyph : Glyph) :
    depthAfter depth glyph =
      if glyph.isTopLevelChar '(' then depth + 1
      else if glyph.isTopLevelChar ')' then depth - 1
      else depth := by
  rw [depthAfter]
  cases opens : glyph.isTopLevelChar '(' with
  | false => simp
  | true =>
      have closes : glyph.isTopLevelChar ')' = false := by
        rw [Bool.eq_false_iff]
        intro closing
        have same := Glyph.char_of_isTopLevelChar opens
        rw [Glyph.char_of_isTopLevelChar closing] at same
        cases same
      simp [closes]

/-- The keyword of a body is found by a walk that counts the depth. -/
theorem splitAs?_eq_walk (previous : Option Char) (depth : Nat) (glyphs : List Glyph) :
    splitAs? previous depth glyphs =
      (Glyph.walk keywordStep keywordTest (previous, depth) glyphs).map
        fun (passed, word, after) => (ofGlyphs passed ++ word, after) := by
  induction glyphs generalizing previous depth with
  | nil => rfl
  | cons glyph rest ih =>
      rw [splitAs?, Glyph.walk, keywordTest]
      split
      · rfl
      · simp only [ih, ← depthAfter_eq, Option.map_map]
        rfl

/-- The letters of the keyword break no line. -/
theorem visible_of_toLower {c : Char} (letter : c.toLower = 'a' ∨ c.toLower = 's') :
    isBreak c = false := by
  have plain := (plain_of_toLower letter).2
  rw [Bool.eq_false_iff]
  intro breaks
  obtain rfl | rfl := eq_of_isBreak breaks <;> exact plain (by decide)

theorem keywordTest_break (state : Option Char × Nat) (glyph : Glyph) (rest : List Glyph)
    (breaks : isBreak glyph.char = true) : keywordTest state (glyph :: rest) = none := by
  have refused : keywordAt state.1 (ofGlyphs ((glyph :: rest).take 3)) ['A', 'S'] = false := by
    rw [Bool.eq_false_iff]
    intro found
    obtain ⟨a, _, _, shape, isA, _⟩ := eq_cons_of_keywordAt found
    obtain ⟨rfl, _⟩ := List.cons.inj shape
    rw [visible_of_toLower (Or.inl isA)] at breaks
    cases breaks
  rw [keywordTest, refused, Bool.and_false]
  rfl

/-- The test of that walk commutes with normalization. -/
theorem keywordTest_normalizeAll {state other : Option Char × Nat} {glyph : Glyph}
    (rest : List Glyph) (alike : other.1.any isIdentifierChar = state.1.any isIdentifierChar)
    (depths : other.2 = state.2) (visible : isBreak glyph.char = false) :
    keywordTest other (glyph :: Glyph.normalizeAll rest) =
      (keywordTest state (glyph :: rest)).map fun (word, after) =>
        (word.normalize, after.normalize) := by
  have whole : ofGlyphs (glyph :: Glyph.normalizeAll rest) =
      normalize (ofGlyphs (glyph :: rest)) := by
    have chars := Glyph.ofGlyphs_normalizeAll rest
    simp only [ofGlyphs, List.map_cons] at chars ⊢
    rw [normalize_cons visible, chars]
  have words : keywordAt other.1 (ofGlyphs ((glyph :: Glyph.normalizeAll rest).take 3)) ['A', 'S'] =
      keywordAt state.1 (ofGlyphs ((glyph :: rest).take 3)) ['A', 'S'] := by
    simp only [ofGlyphs, List.map_take, keywordAt_take] at whole ⊢
    rw [whole, keywordAt_normalize alike]
  rw [keywordTest, keywordTest, words, depths]
  split
  case isTrue here =>
    obtain ⟨a, b, tail, shape, _, isS, _⟩ :=
      eq_cons_of_keywordAt (Bool.and_eq_true_iff.mp here).2
    cases rest with
    | nil => simp [ofGlyphs] at shape
    | cons second others =>
        have char : second.char = b := by
          rw [List.take_succ_cons, List.take_succ_cons] at shape
          exact (List.cons.inj (List.cons.inj shape).2).1
        have shown : isBreak second.char = false := visible_of_toLower (Or.inr (char ▸ isS))
        have lone : second.Lone others := by
          intro next _ both
          exact ne_return_of_visible shown both.1
        have chars := Glyph.ofGlyphs_normalizeAll others
        rw [Glyph.normalizeAll_cons lone, Glyph.unify_of_visible shown]
        simp only [ofGlyphs] at chars
        simp [ofGlyphs, chars, normalize_cons visible, normalize_cons shown, normalize]
  case isFalse => rfl

/-- A cut before the keyword is clean. -/
theorem cleanCut_of_keywordTest {state : Option Char × Nat} {glyphs : List Glyph}
    {word after : Text} (accepted : keywordTest state glyphs = some (word, after))
    (front : Text) : CleanCut front word := by
  cases glyphs with
  | nil => cases accepted
  | cons glyph rest =>
      have visible : isBreak glyph.char = false := by
        rw [Bool.eq_false_iff]
        intro breaks
        rw [keywordTest_break state glyph rest breaks] at accepted
        cases accepted
      rw [keywordTest] at accepted
      split at accepted
      · cases accepted
        exact cleanCut_cons front visible _
      · cases accepted

/-- **The keyword of a body ignores the kind of line breaks.** -/
theorem splitAs?_normalize (previous : Option Char) (text : Text) :
    splitAs? previous 0 text.normalize.scan =
      (splitAs? previous 0 text.scan).map fun (before, after) =>
        (before.normalize, after.normalize) := by
  let related (state other : Option Char × Nat) : Prop :=
    other.1.any isIdentifierChar = state.1.any isIdentifierChar ∧ other.2 = state.2
  have agrees (state other : Option Char × Nat) (glyph : Glyph) (rest : List Glyph)
      (same : related state other) (visible : isBreak glyph.char = false) :=
    keywordTest_normalizeAll rest same.1 same.2 visible
  have steps (state other : Option Char × Nat) (glyph : Glyph) (same : related state other) :
      related (keywordStep state glyph) (keywordStep other glyph.unify) := by
    refine ⟨any_previousUnified (by decide) (some glyph.char), ?_⟩
    show depthAfter other.2 glyph.unify = depthAfter state.2 glyph
    rw [depthAfter_unify, same.2]
  have pairs (state other : Option Char × Nat) (first second : Glyph) (same : related state other)
      (isReturn : first.char = '\r') (isFeed : second.char = '\n') :
      related (keywordStep (keywordStep state first) second) (keywordStep other first.unify) := by
    have breaks : isBreak second.char = true := by rw [isFeed]; rfl
    refine ⟨?_, ?_⟩
    · simp [keywordStep, Glyph.unify, isReturn, isFeed]
    · show depthAfter other.2 first.unify = depthAfter (depthAfter state.2 first) second
      rw [depthAfter_unify, same.2, depthAfter_break _ breaks]
  rw [splitAs?_eq_walk, splitAs?_eq_walk, scan_normalize,
    Glyph.walk_normalize keywordTest_break agrees steps pairs text.scan ⟨rfl, rfl⟩]
  cases walked : Glyph.walk keywordStep keywordTest (previous, 0) text.scan with
  | none => rfl
  | some result =>
      obtain ⟨passed, word, after⟩ := result
      obtain ⟨rest, reached, _, accepted⟩ := Glyph.eq_append_of_walk walked
      have clean := cleanCut_of_keywordTest accepted (ofGlyphs passed)
      simp [normalize_append clean, Glyph.ofGlyphs_normalizeAll]

/-- A cut after the keyword is clean. -/
theorem cleanCut_of_splitAs? {previous : Option Char} {depth : Nat} {glyphs : List Glyph}
    {before after : Text} (found : splitAs? previous depth glyphs = some (before, after))
    (back : Text) : CleanCut before back := by
  obtain ⟨missed, _⟩ | ⟨passed, first, second, rest, _, _, isS, _, _, split⟩ :=
    splitAs?_cases previous depth glyphs
  · rw [missed] at found
    cases found
  · rw [split] at found
    cases found
    have visible := visible_of_toLower (Or.inr isS)
    intro last
    rw [ofGlyphs, List.map_append, List.getLast?_append] at last
    cases ne_return_of_visible visible (Option.some.inj last)

end Text

namespace Literal

/-- A body literal with the line breaks in it normalised. -/
def normalize : Literal → Literal
  | dollar tag content => dollar tag content.normalize
  | quoted content link => quoted content.normalize
      (link.map fun (separator, symbol) => (separator.normalize, symbol.normalize))

/-- The text of a literal is normalized with the literal. -/
theorem text_normalize (literal : Literal) : literal.normalize.text = literal.text.normalize := by
  cases literal with
  | dollar tag content => exact trimBlankLines_normalize content
  | quoted content link =>
      rw [normalize, text, text, undouble_normalize, trimBlankLines_normalize]

theorem readDollar?_normalize (text : Text) :
    readDollar? text.normalize =
      (readDollar? text).map fun (literal, after) => (literal.normalize, after.normalize) := by
  rw [readDollar?, readDollar?, dollarTag?_normalize]
  cases found : dollarTag? text with
  | none => rfl
  | some tag =>
      obtain ⟨isTag, rest, rfl⟩ := dollarTag?_eq_some_iff.mp found
      simp only [normalize_append_of_visible isTag.visible, List.drop_left,
        splitFirst?_normalize isTag.ne_nil isTag.visible, Option.map_map]
      rfl

/-- Without a comma there is no link symbol. -/
theorem readLink?_of_bare {text : Text} (bare : (text.dropWhile isAsciiBlank).head? ≠ some ',') :
    readLink? text = some (none, text) := by
  rw [readLink?]
  split
  case h_1 rest comma => exact absurd (by rw [comma]; rfl) bare
  case h_2 => rfl

/-- A comma without a quote after it is followed by no link symbol. -/
theorem readLink?_of_comma {text rest : Text} (comma : text.dropWhile isAsciiBlank = ',' :: rest)
    (bare : (rest.dropWhile isAsciiBlank).head? ≠ some '\'') :
    readLink? text = some (none, text) := by
  rw [readLink?, comma]
  simp only
  split
  case h_1 opened quote => exact absurd (by rw [quote]; rfl) bare
  case h_2 => rfl

/-- A comma and a quote are followed by a link symbol. -/
theorem readLink?_of_quote {text rest opened : Text}
    (comma : text.dropWhile isAsciiBlank = ',' :: rest)
    (quote : rest.dropWhile isAsciiBlank = '\'' :: opened) :
    readLink? text =
      (splitQuoted? opened).map fun (symbol, after) =>
        (some (text.takeWhile isAsciiBlank ++ ',' :: rest.takeWhile isAsciiBlank, symbol),
          after) := by
  rw [readLink?, comma]
  simp only [quote]

theorem readLink?_normalize (text : Text) :
    readLink? text.normalize =
      (readLink? text).map fun (link, after) =>
        (link.map fun (separator, symbol) => (separator.normalize, symbol.normalize),
          after.normalize) := by
  have commaVisible : isBreak ',' = false := rfl
  have quoteVisible : isBreak '\'' = false := rfl
  have taken (part : Text) := @takeWhile_normalize isAsciiBlank rfl part
  have dropped (part : Text) := @dropWhile_normalize isAsciiBlank rfl part
  by_cases comma : (text.dropWhile isAsciiBlank).head? = some ','
  · obtain ⟨rest, shape⟩ := List.head?_eq_some_iff.mp comma
    have shapeToo : text.normalize.dropWhile isAsciiBlank = ',' :: Text.normalize rest := by
      rw [dropped, shape, normalize_cons commaVisible]
    by_cases quote : (rest.dropWhile isAsciiBlank).head? = some '\''
    · obtain ⟨opened, inner⟩ := List.head?_eq_some_iff.mp quote
      have innerToo : (Text.normalize rest).dropWhile isAsciiBlank =
          '\'' :: Text.normalize opened := by
        rw [dropped, inner, normalize_cons quoteVisible]
      rw [readLink?_of_quote shape inner, readLink?_of_quote shapeToo innerToo,
        splitQuoted?_normalize, Option.map_map, Option.map_map]
      congr 1
      funext found
      simp [taken, normalize_append_cons commaVisible]
    · have bare : ((Text.normalize rest).dropWhile isAsciiBlank).head? ≠ some '\'' := by
        rwa [dropped, Ne, head?_normalize_eq_some_iff quoteVisible]
      rw [readLink?_of_comma shape quote, readLink?_of_comma shapeToo bare]
      rfl
  · have bare : (text.normalize.dropWhile isAsciiBlank).head? ≠ some ',' := by
      rwa [dropped, Ne, head?_normalize_eq_some_iff commaVisible]
    rw [readLink?_of_bare comma, readLink?_of_bare bare]
    rfl

/-- A quoted literal is its content and what joins a link symbol to it. -/
theorem read?_quote (opened : Text) :
    read? ('\'' :: opened) =
      (splitQuoted? opened).bind fun (content, rest) =>
        (readLink? rest).map fun (link, after) => (quoted content link, after) := by
  rw [read?]
  cases splitQuoted? opened <;> rfl

/-- A literal starts with a dollar sign or a quote. -/
theorem read?_of_bare {text : Text} (notDollar : text.head? ≠ some '$')
    (notQuote : text.head? ≠ some '\'') : read? text = none := by
  rw [read?]
  · rintro rest rfl
    exact notDollar rfl
  · rintro opened rfl
    exact notQuote rfl

theorem read?_normalize (text : Text) :
    read? text.normalize =
      (read? text).map fun (literal, after) => (literal.normalize, after.normalize) := by
  have dollarVisible : isBreak '$' = false := rfl
  have quoteVisible : isBreak '\'' = false := rfl
  by_cases dollar : text.head? = some '$'
  · obtain ⟨rest, rfl⟩ := List.head?_eq_some_iff.mp dollar
    have found := readDollar?_normalize ('$' :: rest)
    rw [normalize_cons dollarVisible] at found ⊢
    exact found
  by_cases quote : text.head? = some '\''
  · obtain ⟨opened, rfl⟩ := List.head?_eq_some_iff.mp quote
    rw [normalize_cons quoteVisible, read?_quote, read?_quote, splitQuoted?_normalize]
    cases splitQuoted? opened with
    | none => rfl
    | some parts =>
        simp only [Option.map_some, Option.bind_some, readLink?_normalize, Option.map_map]
        rfl
  · rw [read?_of_bare dollar quote, read?_of_bare, Option.map_none]
    · rwa [Ne, head?_normalize_eq_some_iff dollarVisible]
    · rwa [Ne, head?_normalize_eq_some_iff quoteVisible]

/-- **Body literals ignore the kind of line breaks.** -/
theorem locate?_normalize (previous : Option Char) (text : Text) :
    locate? previous text.normalize =
      (locate? previous text).map fun (before, literal, after) =>
        (before.normalize, literal.normalize, after.normalize) := by
  have alike : isAsciiBlank '\r' = isAsciiBlank '\n' := rfl
  rw [locate?, locate?, splitAs?_normalize]
  cases found : splitAs? previous 0 text.scan with
  | none => rfl
  | some parts =>
      obtain ⟨before, rest⟩ := parts
      have clean := cleanCut_of_splitAs? found (rest.takeWhile isAsciiBlank)
      simp only [Option.map_some, dropWhile_normalize alike, takeWhile_normalize alike,
        read?_normalize, Option.map_map, Function.comp_def, normalize_append clean]

end Literal

namespace Header

open Recogniser

/-- A header with its line breaks normalised. -/
def normalize (header : Header) : Header :=
  { header with written := header.written.normalize }

theorem normalizes_create : create.Normalizes := by
  apply normalizes_sequence
  simp only [List.forall_mem_cons]
  refine ⟨normalizes_keyword rfl rfl, normalizes_blanks, normalizes_optional ?_,
    fun _ member => absurd member List.not_mem_nil⟩
  apply normalizes_sequence
  simp only [List.forall_mem_cons]
  exact ⟨normalizes_keyword rfl rfl, normalizes_blanks, normalizes_keyword rfl rfl,
    normalizes_blanks, fun _ member => absurd member List.not_mem_nil⟩

theorem readKind?_normalize (text : Text) :
    readKind? text.normalize =
      (readKind? text).map fun (kind, word, rest) => (kind, word.normalize, rest.normalize) := by
  have functions : (keyword "FUNCTION").Normalizes := normalizes_keyword rfl rfl
  have procedures : (keyword "PROCEDURE").Normalizes := normalizes_keyword rfl rfl
  rw [readKind?, readKind?, functions.commutes, procedures.commutes]
  cases keyword "FUNCTION" text with
  | some parts => rfl
  | none =>
      simp only [Option.map_none, Option.map_map]
      rfl

/-- A cut after a kind is clean. -/
theorem cleanCut_of_readKind? {text word rest : Text} {kind : Kind}
    (found : readKind? text = some (kind, word, rest)) : CleanCut word rest := by
  have functions : (keyword "FUNCTION").Normalizes := normalizes_keyword rfl rfl
  have procedures : (keyword "PROCEDURE").Normalizes := normalizes_keyword rfl rfl
  unfold readKind? at found
  split at found
  case h_1 spelled =>
    cases found
    exact functions.cleanCut _ _ _ spelled
  case h_2 =>
    simp only [Option.map_eq_some_iff, Prod.exists, Prod.mk.injEq] at found
    obtain ⟨letters, tail, spelled, _, rfl, rfl⟩ := found
    exact procedures.cleanCut _ _ _ spelled

theorem read?_normalize (text : Text) :
    read? text.normalize =
      (read? text).map fun (header, after) => (header.normalize, after.normalize) := by
  rw [read?, read?, normalizes_create.commutes]
  cases created : create text with
  | none => rfl
  | some opened =>
      obtain ⟨opening, rest⟩ := opened
      simp only [Option.map_some, readKind?_normalize]
      cases named : readKind? rest with
      | none => rfl
      | some kinded =>
          obtain ⟨kind, word, spaced⟩ := kinded
          simp only [Option.map_some, normalizes_blanks.commutes, Option.map_map]
          cases blank : blanks spaced with
          | none => rfl
          | some gapped =>
              obtain ⟨gap, after⟩ := gapped
              have whole : rest = word ++ gap ++ after := by
                rw [eq_append_of_readKind? named, splits_blanks _ _ _ blank, List.append_assoc]
              have first : CleanCut opening (word ++ gap) := by
                have clean := normalizes_create.cleanCut _ _ _ created
                rw [whole] at clean
                exact clean.of_append
              have second : CleanCut word gap := by
                have clean := cleanCut_of_readKind? named
                rw [splits_blanks _ _ _ blank] at clean
                exact clean.of_append
              simp [normalize, normalize_append first, normalize_append second]

/-- No header starts at a line break. -/
theorem read?_break (c : Char) (rest : Text) (breaks : isBreak c = true) :
    read? (c :: rest) = none := by
  have refused : create (c :: rest) = none := by
    obtain rfl | rfl := eq_of_isBreak breaks <;> rfl
  rw [read?, refused]

/-- **Headers ignore the kind of line breaks.** -/
theorem find?_normalize (text : Text) :
    find? text.normalize =
      (find? text).map fun (before, header, after) =>
        (before.normalize, header.normalize, after.normalize) := by
  exact search_normalize_of_forward read?_break read?_normalize text

/-- No `\r\n` stands across an end of a header. -/
theorem cleanCut_of_find? {text before after : Text} {header : Header}
    (found : find? text = some (before, header, after)) :
    CleanCut before (header.written ++ after) ∧ CleanCut header.written after := by
  obtain ⟨rest, _, clean, read⟩ := cleanCut_of_search read?_break found
  refine ⟨by rwa [eq_append_of_read? read] at clean, ?_⟩
  unfold read? at read
  split at read
  case h_1 => cases read
  case h_2 opening opened _ =>
    split at read
    case h_1 => cases read
    case h_2 kind word spaced _ =>
      simp only [Option.map_eq_some_iff, Prod.exists, Prod.mk.injEq] at read
      obtain ⟨gap, tail, blank, rfl, rfl⟩ := read
      obtain ⟨nonempty, _⟩ := blanks_eq_some_iff.mp blank
      intro last
      refine normalizes_blanks.cleanCut _ _ _ blank ?_
      rwa [List.getLast?_append, List.getLast?_eq_some_getLast nonempty, Option.some_or,
        ← List.getLast?_eq_some_getLast nonempty] at last

end Header

/-! ### Names -/

/-- A text without one double quote at its end, where there is one. -/
def withoutQuote (text : Text) : Text :=
  if text.getLast? = some '"' then text.dropLast else text

/-- Dropping a closing quote commutes with normalization. -/
theorem withoutQuote_normalize (text : Text) :
    withoutQuote text.normalize = (withoutQuote text).normalize := by
  have mark : isBreak '"' = false := rfl
  rw [withoutQuote, withoutQuote]
  by_cases last : text.getLast? = some '"'
  · rw [if_pos ((getLast?_normalize_eq_some_iff mark text).mpr last), if_pos last,
      dropLast_normalize mark last]
  · rw [if_neg (mt (getLast?_normalize_eq_some_iff mark text).mp last), if_neg last]

/-- A name after a quote loses its closing quote. -/
theorem unquoteIdentifier_of_quote {text rest : Text} (shape : text.trim = '"' :: rest) :
    unquoteIdentifier text = withoutQuote rest := by
  rw [unquoteIdentifier, shape]
  rfl

/-- A name without an opening quote is trimmed. -/
theorem unquoteIdentifier_of_bare {text : Text} (bare : text.trim.head? ≠ some '"') :
    unquoteIdentifier text = withoutQuote text.trim := by
  rw [unquoteIdentifier]
  split
  case h_1 rest shape => exact absurd (by rw [shape]; rfl) bare
  case h_2 => rfl

/-- Reading a name commutes with normalization. -/
theorem unquoteIdentifier_normalize (text : Text) :
    unquoteIdentifier text.normalize = (unquoteIdentifier text).normalize := by
  have mark : isBreak '"' = false := rfl
  by_cases head : text.trim.head? = some '"'
  · obtain ⟨rest, shape⟩ := List.head?_eq_some_iff.mp head
    have shapeToo : text.normalize.trim = '"' :: Text.normalize rest := by
      rw [trim_normalize, shape, normalize_cons mark]
    rw [unquoteIdentifier_of_quote shape, unquoteIdentifier_of_quote shapeToo,
      withoutQuote_normalize]
  · have headToo : text.normalize.trim.head? ≠ some '"' := by
      rwa [trim_normalize, Ne, head?_normalize_eq_some_iff mark]
    rw [unquoteIdentifier_of_bare head, unquoteIdentifier_of_bare headToo, trim_normalize,
      withoutQuote_normalize]

namespace QualifiedName

/-- A name with the line breaks in both parts normalised. -/
def normalize (name : QualifiedName) : QualifiedName :=
  ⟨name.schema.map Text.normalize, name.name.normalize⟩

/-- **Names ignore the kind of line breaks.** -/
theorem ofText_normalize (segment : Text) :
    ofText segment.normalize = (ofText segment).normalize := by
  have visible : isBreak '.' = false := rfl
  rw [ofText, ofText, trim_normalize, splitTopLevel?_normalize visible]
  cases splitTopLevel? '.' segment.trim with
  | none => simp [normalize, unquoteIdentifier_normalize]
  | some parts => simp [normalize, unquoteIdentifier_normalize]

/-- A qualified name is normalized with its parts. -/
theorem qualified_normalize (name : QualifiedName) :
    name.normalize.qualified = name.qualified.normalize := by
  have visible : isBreak '.' = false := rfl
  obtain ⟨schema, name⟩ := name
  cases schema with
  | none => rfl
  | some schema => exact (normalize_append_cons visible schema name).symm

end QualifiedName

end RoutineScripts
