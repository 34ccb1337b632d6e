import RoutineScripts.Lexical.Scan

/-!
# Body literals

The body of a routine follows the first top-level `AS` outside parentheses, as a dollar-quoted
span or as a string literal. Two string literals with a comma between them name an object file and
a symbol in it. A `Literal` keeps exactly what was written between the delimiters, so that
`Literal.written` gives the literal back and `Literal.text` unwraps it.
-/

namespace RoutineScripts

/-- A body literal. A quoted literal holds its content with doubled quotes as written; its link
symbol, if there is one, comes with the comma and white space before it. -/
inductive Literal
  | dollar (tag content : Text)
  | quoted (content : Text) (link : Option (Text × Text))
  deriving DecidableEq, Repr

namespace Text

/-- Puts a text between single quotes. -/
def quote (content : Text) : Text :=
  '\'' :: content ++ ['\'']

/-- Turns each doubled single quote into one. -/
def undouble : Text → Text
  | [] => []
  | '\'' :: '\'' :: rest => '\'' :: undouble rest
  | c :: rest => c :: undouble rest

/-- Given the text after an opening single quote, the content up to the quote that closes it and
the text after that. A doubled quote belongs to the content. -/
def splitQuoted? : Text → Option (Text × Text)
  | [] => none
  | '\'' :: '\'' :: rest =>
      (splitQuoted? rest).map fun (content, after) => ('\'' :: '\'' :: content, after)
  | c :: rest =>
      if c = '\'' then some ([], rest)
      else (splitQuoted? rest).map fun (content, after) => (c :: content, after)

/-- A quoted literal is its content, the closing quote and what follows. -/
theorem eq_append_of_splitQuoted? {text content after : Text}
    (found : splitQuoted? text = some (content, after)) : text = content ++ '\'' :: after := by
  fun_induction splitQuoted? text generalizing content with
  | case1 => cases found
  | case2 rest ih =>
      simp only [Option.map_eq_some_iff, Prod.exists, Prod.mk.injEq] at found
      obtain ⟨inner, tail, closed, rfl, rfl⟩ := found
      rw [ih closed]
      rfl
  | case3 =>
      cases found
      rfl
  | case4 c rest _ _ ih =>
      simp only [Option.map_eq_some_iff, Prod.exists, Prod.mk.injEq] at found
      obtain ⟨inner, tail, closed, rfl, rfl⟩ := found
      rw [ih closed]
      rfl

/-- Splits a text after the first top-level `AS` outside parentheses that is a whole word. The
character before the text is given, and the glyphs are those of the text. -/
def splitAs? : Option Char → Nat → List Glyph → Option (Text × Text)
  | _, _, [] => none
  | previous, depth, glyph :: rest =>
      if glyph.isTopLevel && depth == 0
          && keywordAt previous (ofGlyphs ((glyph :: rest).take 3)) ['A', 'S'] then
        some (ofGlyphs ((glyph :: rest).take 2), ofGlyphs ((glyph :: rest).drop 2))
      else
        let inside :=
          if glyph.isTopLevelChar '(' then depth + 1
          else if glyph.isTopLevelChar ')' then depth - 1
          else depth
        (splitAs? (some glyph.char) inside rest).map fun (before, after) =>
          (glyph.char :: before, after)

/-- What stands before an `AS` and what follows it make up the glyphs. -/
theorem eq_append_of_splitAs? {previous : Option Char} {depth : Nat} {glyphs : List Glyph}
    {before after : Text} (found : splitAs? previous depth glyphs = some (before, after)) :
    ofGlyphs glyphs = before ++ after := by
  induction glyphs generalizing previous depth before with
  | nil => cases found
  | cons glyph rest ih =>
      simp only [splitAs?] at found
      split at found
      · simp only [Option.some.injEq, Prod.mk.injEq] at found
        obtain ⟨rfl, rfl⟩ := found
        simp only [ofGlyphs, ← List.map_append, List.take_append_drop]
      · simp only [Option.map_eq_some_iff, Prod.exists, Prod.mk.injEq] at found
        obtain ⟨passed, tail, later, rfl, rfl⟩ := found
        have split := ih later
        simp only [ofGlyphs, List.map_cons, List.cons_append] at split ⊢
        rw [split]

end Text

namespace Literal

/-- The separator and the link symbol after a string literal, as written. -/
def linkText : Option (Text × Text) → Text
  | none => []
  | some (separator, symbol) => separator ++ symbol.quote

/-- The literal with its delimiters. -/
def written : Literal → Text
  | dollar tag content => tag ++ content ++ tag
  | quoted content link => content.quote ++ linkText link

/-- The body that a literal stands for, without blank lines at its ends. -/
def text : Literal → Text
  | dollar _ content => content.trimBlankLines
  | quoted content _ => content.undouble.trimBlankLines

/-- Reads a dollar-quoted span at the front of a text. -/
def readDollar? (text : Text) : Option (Literal × Text) :=
  match dollarTag? text with
  | none => none
  | some tag =>
      (Text.splitFirst? tag (text.drop tag.length)).map fun (content, after) =>
        (dollar tag content, after)

/-- Reads the link symbol that may follow a string literal: a comma and another string literal,
with white space around the comma. The outer result is missing when a second literal is opened
and not closed. -/
def readLink? (text : Text) : Option (Option (Text × Text) × Text) :=
  match text.dropWhile isAsciiBlank with
  | ',' :: rest =>
      match rest.dropWhile isAsciiBlank with
      | '\'' :: opened =>
          (Text.splitQuoted? opened).map fun (symbol, after) =>
            let separator := text.takeWhile isAsciiBlank ++ ',' :: rest.takeWhile isAsciiBlank
            (some (separator, symbol), after)
      | _ => some (none, text)
  | _ => some (none, text)

/-- Reads a body literal at the front of a text. -/
def read? (text : Text) : Option (Literal × Text) :=
  match text with
  | '$' :: _ => readDollar? text
  | '\'' :: opened =>
      match Text.splitQuoted? opened with
      | none => none
      | some (content, rest) =>
          (readLink? rest).map fun (link, after) => (quoted content link, after)
  | _ => none

/-- Splits the text after an argument list into what leads up to the body literal, the literal, and
what follows it. The character before the text is given. -/
def locate? (previous : Option Char) (text : Text) : Option (Text × Literal × Text) :=
  match Text.splitAs? previous 0 text.scan with
  | none => none
  | some (before, rest) =>
      (read? (rest.dropWhile isAsciiBlank)).map fun (literal, after) =>
        (before ++ rest.takeWhile isAsciiBlank, literal, after)

/-- A dollar-quoted literal and what follows it make up the text. -/
theorem eq_append_of_readDollar? {text after : Text} {literal : Literal}
    (found : readDollar? text = some (literal, after)) : text = literal.written ++ after := by
  unfold readDollar? at found
  split at found
  case h_1 => cases found
  case h_2 tag opening =>
    simp only [Option.map_eq_some_iff, Prod.exists, Prod.mk.injEq] at found
    obtain ⟨content, rest, closing, rfl, rfl⟩ := found
    obtain ⟨opened, rfl⟩ := exists_append_of_dollarTag? opening
    rw [List.drop_left] at closing
    rw [Text.eq_append_of_splitFirst? closing]
    simp [written]

/-- A link symbol and what follows it make up the text. -/
theorem eq_append_of_readLink? {text after : Text} {link : Option (Text × Text)}
    (found : readLink? text = some (link, after)) : text = linkText link ++ after := by
  unfold readLink? at found
  split at found
  case h_1 rest comma =>
    split at found
    case h_1 opened quote =>
      simp only [Option.map_eq_some_iff, Prod.exists, Prod.mk.injEq] at found
      obtain ⟨symbol, tail, closing, rfl, rfl⟩ := found
      have opening := Text.eq_append_of_splitQuoted? closing
      calc text = text.takeWhile isAsciiBlank ++ ',' :: rest := by
            rw [← comma, List.takeWhile_append_dropWhile]
        _ = text.takeWhile isAsciiBlank
              ++ ',' :: (rest.takeWhile isAsciiBlank ++ '\'' :: opened) := by
            rw [← quote, List.takeWhile_append_dropWhile]
        _ = _ := by
            rw [opening]
            simp [linkText, Text.quote]
    case h_2 => cases found; rfl
  case h_2 => cases found; rfl

/-- A body literal and what follows it make up the text. -/
theorem eq_append_of_read? {text after : Text} {literal : Literal}
    (found : read? text = some (literal, after)) : text = literal.written ++ after := by
  unfold read? at found
  split at found
  case h_1 => exact eq_append_of_readDollar? found
  case h_2 opened =>
    split at found
    case h_1 => cases found
    case h_2 content rest closing =>
      simp only [Option.map_eq_some_iff, Prod.exists, Prod.mk.injEq] at found
      obtain ⟨link, tail, linked, rfl, rfl⟩ := found
      rw [Text.eq_append_of_splitQuoted? closing, eq_append_of_readLink? linked]
      simp [written, Text.quote]
  case h_3 => cases found

/-- The parts of a text with a body literal make up the text. -/
theorem eq_append_of_locate? {previous : Option Char} {text before after : Text}
    {literal : Literal} (found : locate? previous text = some (before, literal, after)) :
    text = before ++ literal.written ++ after := by
  unfold locate? at found
  split at found
  case h_1 => cases found
  case h_2 start rest keyword =>
    simp only [Option.map_eq_some_iff, Prod.exists, Prod.mk.injEq] at found
    obtain ⟨body, tail, read, rfl, rfl, rfl⟩ := found
    have whole := Text.eq_append_of_splitAs? keyword
    rw [Text.ofGlyphs_scan] at whole
    simp only [whole, List.append_assoc]
    rw [← eq_append_of_read? read, List.takeWhile_append_dropWhile]

/-- The body literal of a text scanned from a byte offset, with its byte span. -/
def locateAt? (text : Text) (start : Nat) : Option (Literal × Nat × Nat) :=
  let (cut, rest) := text.dropBytes start
  let previous := match text.splitAtByte? start with
    | some (before, _) => before.getLast?
    | none => none
  (locate? previous rest).map fun (before, literal, _) =>
    let first := start + cut + before.byteLength
    (literal, first, first + literal.written.byteLength)

end Literal

end RoutineScripts
