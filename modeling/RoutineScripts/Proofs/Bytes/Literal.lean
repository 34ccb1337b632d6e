import RoutineScripts.Proofs.Bytes.Keyword
import RoutineScripts.Proofs.Bytes.Search
import RoutineScripts.Proofs.Bytes.Trim
import RoutineScripts.Proofs.Routine.Definition
import RoutineScripts.Proofs.Routine.Normalization
import RoutineScripts.Proofs.Routine.Reader

/-!
# Body literals by bytes

The reader of a body literal carries byte offsets from one step to the next: from the keyword to the
white space after it, from there to the literal, and from its opening delimiter to the closing one.
Each of them is the length of a front of the text, because what is passed in a step is either ASCII
or found by a search for a delimiter (`Checked.closingQuote?_append`, `Checked.readBody?_append`).

The search for the keyword may start at any offset (`Checked.locate?_eq`).
-/

namespace RoutineScripts

/-- A body literal in a text: its byte span, how it is delimited, and the body that it stands
for. -/
structure PlacedLiteral where
  first : Nat
  last : Nat
  delimiter : Delimiter
  body : Text
  deriving DecidableEq, Repr

/-- The literal when its text is moved by some bytes. -/
def PlacedLiteral.shift (literal : PlacedLiteral) (offset : Nat) : PlacedLiteral :=
  { literal with first := offset + literal.first, last := offset + literal.last }

/-- A literal at a byte offset. -/
def Literal.placed (literal : Literal) (first : Nat) : PlacedLiteral :=
  ⟨first, first + literal.written.byteLength, literal.delimiter, literal.text⟩

/-- A placed literal moves with the text in front of it. -/
theorem Literal.shift_placed (literal : Literal) (first offset : Nat) :
    (literal.placed first).shift offset = literal.placed (offset + first) := by
  simp [placed, PlacedLiteral.shift, Nat.add_assoc]

namespace Checked

/-! ### Dollar-quoted literals -/

/-- Reads a dollar-quoted literal at an offset. -/
def readDollar? (text : Text) (start : Nat) : Checked (Option PlacedLiteral) := do
  match ← dollarTag? text start with
  | none => return none
  | some tag =>
      let opened := start + tag.byteLength
      let rest ← sliceFrom text opened
      match Text.splitFirst? tag rest with
      | none => return none
      | some (inner, _) =>
          let closing := opened + inner.byteLength
          let content ← slice text opened closing
          let body ← trimBlankLines content
          return some ⟨start, closing + tag.byteLength, .dollar tag, body⟩

/-- A dollar-quoted literal is read at a boundary without a fault. -/
theorem readDollar?_append (front rest : Text) :
    readDollar? (front ++ rest) front.byteLength =
      .ok ((Literal.readDollar? rest).map fun (literal, _) => literal.placed front.byteLength) := by
  rw [readDollar?, dollarTag?_append, ok_bind, Literal.readDollar?]
  cases opening : RoutineScripts.dollarTag? rest with
  | none => rfl
  | some tag =>
      obtain ⟨opened, rfl⟩ := exists_append_of_dollarTag? opening
      have start : sliceFrom (front ++ (tag ++ opened)) (front.byteLength + tag.byteLength) =
          .ok opened := by
        have found := sliceFrom_append (front ++ tag) opened
        rwa [List.append_assoc, Text.byteLength_append] at found
      dsimp only
      rw [start, ok_bind, List.drop_left]
      cases closing : Text.splitFirst? tag opened with
      | none => rfl
      | some parts =>
          obtain ⟨content, after⟩ := parts
          have inner : slice (front ++ (tag ++ opened)) (front.byteLength + tag.byteLength)
              (front.byteLength + tag.byteLength + content.byteLength) = .ok content := by
            refine slice_eq (front ++ tag) (tag ++ after) ?_ (by simp) rfl
            rw [Text.eq_append_of_splitFirst? closing]
            simp
          dsimp only
          rw [inner, ok_bind, trimBlankLines_eq, ok_bind]
          simp [Literal.placed, Literal.written, Literal.delimiter, Literal.text, Nat.add_assoc]
          rfl

/-! ### String literals -/

/-- The offset of the quote that closes a string literal, looked for from an index on. A doubled
quote is passed. -/
def closingQuote? (text : Text) (index : Nat) : Checked (Option Nat) :=
  if index < text.byteLength then do
    let byte ← byteAt text index
    if byte = byteOf '\'' then
      if text.byte? (index + 1) = some (byteOf '\'') then closingQuote? text (index + 2)
      else return some index
    else closingQuote? text (index + 1)
  else return none
termination_by text.byteLength - index

/-- Reads a string literal whose opening quote is at an offset: its content, with doubled quotes
written once, and the offset of its end. -/
def readQuoted? (text : Text) (start : Nat) : Checked (Option (Text × Nat)) := do
  match ← closingQuote? text (start + 1) with
  | none => return none
  | some closing =>
      let content ← slice text (start + 1) closing
      return some (content.undouble, closing + 1)

/-- The end of a literal with what may link to it, and whether something does. -/
def readLink? (text : Text) (stop : Nat) : Checked (Option (Nat × Bool)) := do
  let comma ← skipWhile isAsciiBlank text stop
  if text.byte? comma = some (byteOf ',') then do
    let second ← skipWhile isAsciiBlank text (comma + 1)
    if text.byte? second = some (byteOf '\'') then do
      let symbol ← readQuoted? text second
      return symbol.map fun (_, last) => (last, true)
    else return some (stop, false)
  else return some (stop, false)

/-- Reads one or two string literals at an offset. -/
def readStrings? (text : Text) (start : Nat) : Checked (Option PlacedLiteral) := do
  match ← readQuoted? text start with
  | none => return none
  | some (content, stop) =>
      match ← readLink? text stop with
      | none => return none
      | some (last, linked) =>
          let body ← trimBlankLines content
          return some ⟨start, last, .quoted linked, body⟩

/-- A search for the closing quote passes over bytes outside ASCII. -/
theorem closingQuote?_upper {text : Text} {start count : Nat}
    (upper : ∀ index, start ≤ index → index < start + count → text.UpperAt index) :
    closingQuote? text start = closingQuote? text (start + count) := by
  induction count generalizing start with
  | zero => rfl
  | succ count ih =>
      obtain ⟨byte, found, high⟩ := upper start (Nat.le_refl _) (by omega)
      rw [closingQuote?, if_pos (Text.lt_byteLength_of_byte? found), byteAt_of_byte? found, ok_bind,
        if_neg (ne_byteOf_of_le high (by decide)),
        ih fun index lower bound => upper index (by omega) (by omega), Nat.add_right_comm,
        Nat.add_assoc]

/-- A character other than a quote is passed with all its bytes. -/
theorem closingQuote?_cons {c : Char} (other : c ≠ '\'') (front rest : Text) :
    closingQuote? (front ++ c :: rest) front.byteLength =
      closingQuote? (front ++ c :: rest) (front ++ [c]).byteLength := by
  have size : (front ++ [c]).byteLength = front.byteLength + c.utf8Size := by simp
  rw [size]
  by_cases ascii : c.toNat < 0x80
  · rw [closingQuote?, if_pos (Text.byteLength_lt_append front c rest),
      byteAt_of_byte? (Text.byte?_ascii front ascii rest), ok_bind,
      if_neg (mt (byteOf_eq_iff ascii (by decide)).mp other), Text.utf8Size_of_lt ascii]
  · refine closingQuote?_upper fun index lower bound => ?_
    obtain ⟨inner, rfl⟩ := Nat.exists_eq_add_of_le lower
    exact Text.upperAt_char front (Nat.not_lt.mp ascii) rest (by omega)

/-- **The quote that closes a literal.** -/
theorem closingQuote?_append (front rest : Text) :
    closingQuote? (front ++ rest) front.byteLength =
      .ok ((Text.splitQuoted? rest).map fun (content, _) => (front ++ content).byteLength) := by
  fun_induction Text.splitQuoted? rest generalizing front with
  | case1 =>
      rw [List.append_nil, closingQuote?, if_neg (Nat.lt_irrefl _)]
      rfl
  | case2 rest ih =>
      have next : (front ++ '\'' :: '\'' :: rest).byte? (front.byteLength + 1) =
          some (byteOf '\'') := by
        have found := Text.byte?_ascii (front ++ ['\'']) (c := '\'') (by decide) rest
        rwa [Text.byteLength_concat (by decide), List.append_assoc] at found
      have size : (front ++ ['\'', '\'']).byteLength = front.byteLength + 2 := by
        rw [← List.singleton_append, ← List.append_assoc, Text.byteLength_concat (by decide),
          Text.byteLength_concat (by decide)]
      have later := ih (front ++ ['\'', '\''])
      rw [size, List.append_assoc] at later
      rw [closingQuote?, if_pos (Text.byteLength_lt_append front _ _),
        byteAt_of_byte? (Text.byte?_ascii front (by decide) _), ok_bind, if_pos rfl, if_pos next]
      refine later.trans ?_
      simp [Function.comp_def]
  | case3 rest single =>
      have next : ¬ (front ++ '\'' :: rest).byte? (front.byteLength + 1) = some (byteOf '\'') := by
        have here := Text.byteLength_concat (c := '\'') (by decide) front
        rw [Text.byte?_head_iff (front ++ ['\'']) rest (by simp) here (by decide),
          List.head?_eq_some_iff]
        rintro ⟨more, doubled⟩
        exact single more rfl doubled
      rw [closingQuote?, if_pos (Text.byteLength_lt_append front _ _),
        byteAt_of_byte? (Text.byte?_ascii front (by decide) _), ok_bind, if_pos rfl, if_neg next]
      simp
      rfl
  | case4 c rest _ other ih =>
      have later := ih (front ++ [c])
      rw [List.append_assoc, List.singleton_append] at later
      rw [closingQuote?_cons other, later]
      simp [Function.comp_def]

/-- A quoted literal is read at a boundary without a fault. -/
theorem readQuoted?_append (front opened : Text) :
    readQuoted? (front ++ '\'' :: opened) front.byteLength =
      .ok ((Text.splitQuoted? opened).map fun (content, _) =>
        (content.undouble, (front ++ content.quote).byteLength)) := by
  have closes := closingQuote?_append (front ++ ['\'']) opened
  have size := Text.byteLength_concat (c := '\'') (by decide) front
  rw [List.append_assoc, List.singleton_append, size] at closes
  rw [readQuoted?, closes, ok_bind]
  cases found : Text.splitQuoted? opened with
  | none => rfl
  | some parts =>
      obtain ⟨content, after⟩ := parts
      have inner : slice (front ++ '\'' :: opened) (front.byteLength + 1)
          ((front ++ ['\''] ++ content).byteLength) = .ok content := by
        have last : front.byteLength + 1 + content.byteLength =
            (front ++ ['\''] ++ content).byteLength := by
          rw [Text.byteLength_append _ content, size]
        refine slice_eq (front ++ ['\'']) ('\'' :: after) ?_ size last
        rw [Text.eq_append_of_splitQuoted? found]
        simp
      rw [Option.map_some]
      dsimp only
      rw [inner, ok_bind]
      have last : (front ++ ['\''] ++ content).byteLength + 1 =
          (front ++ content.quote).byteLength := by
        rw [← Text.byteLength_concat (c := '\'') (by decide)]
        simp [Text.quote]
      rw [last]
      rfl

theorem onAscii_isAsciiBlank : OnAscii isAsciiBlank := by
  intro c blank
  simp only [isAsciiBlank, Bool.or_eq_true, beq_iff_eq] at blank
  rcases blank with (((rfl | rfl) | rfl) | rfl) | rfl <;> decide

/-- White space is passed up to the character that follows it. -/
theorem skipBlanks_append (front rest : Text) :
    skipWhile isAsciiBlank (front ++ rest) front.byteLength =
      .ok (front ++ rest.takeWhile isAsciiBlank).byteLength := by
  rw [skipWhile_append onAscii_isAsciiBlank, Text.byteLength_append]

/-- After white space, the next byte is that of the next character. -/
theorem byte?_skipBlanks {c : Char} (ascii : c.toNat < 0x80) (front rest : Text) :
    (front ++ rest).byte? (front ++ rest.takeWhile isAsciiBlank).byteLength = some (byteOf c) ↔
      (rest.dropWhile isAsciiBlank).head? = some c := by
  refine Text.byte?_head_iff _ _ ?_ rfl ascii
  rw [List.append_assoc, List.takeWhile_append_dropWhile]

/-- **A second string literal.** -/
theorem readLink?_append (front rest : Text) :
    readLink? (front ++ rest) front.byteLength =
      .ok ((Literal.readLink? rest).map fun (link, _) =>
        ((front ++ Literal.linkText link).byteLength, link.isSome)) := by
  rw [readLink?, skipBlanks_append, ok_bind]
  by_cases comma : (rest.dropWhile isAsciiBlank).head? = some ','
  · rw [if_pos ((byte?_skipBlanks (by decide) front rest).mpr comma)]
    obtain ⟨more, shape⟩ := List.head?_eq_some_iff.mp comma
    have split : front ++ rest = front ++ rest.takeWhile isAsciiBlank ++ [','] ++ more := by
      rw [List.append_assoc, List.append_assoc, List.singleton_append, ← shape,
        List.takeWhile_append_dropWhile]
    have size : (front ++ rest.takeWhile isAsciiBlank).byteLength + 1 =
        (front ++ rest.takeWhile isAsciiBlank ++ [',']).byteLength := by
      rw [Text.byteLength_append _ [',']]
      rfl
    rw [split, size, skipBlanks_append, ok_bind]
    by_cases quote : (more.dropWhile isAsciiBlank).head? = some '\''
    · rw [if_pos ((byte?_skipBlanks (by decide) _ more).mpr quote)]
      obtain ⟨opened, shapeToo⟩ := List.head?_eq_some_iff.mp quote
      have parts : more = more.takeWhile isAsciiBlank ++ '\'' :: opened := by
        rw [← shapeToo, List.takeWhile_append_dropWhile]
      have symbol := readQuoted?_append
        (front ++ rest.takeWhile isAsciiBlank ++ [','] ++ more.takeWhile isAsciiBlank) opened
      rw [List.append_assoc _ _ ('\'' :: opened), ← parts] at symbol
      rw [symbol, ok_bind, Literal.readLink?_of_quote shape shapeToo, Option.map_map,
        Option.map_map]
      simp [Literal.linkText, Function.comp_def]
      rfl
    · rw [if_neg (mt (byte?_skipBlanks (by decide) _ more).mp quote),
        Literal.readLink?_of_comma shape quote]
      simp [Literal.linkText]
      rfl
  · rw [if_neg (mt (byte?_skipBlanks (by decide) front rest).mp comma),
      Literal.readLink?_of_bare comma]
    simp [Literal.linkText]
    rfl

/-- A quoted literal and its link symbol are read at a boundary without a fault. -/
theorem readStrings?_append (front opened : Text) :
    readStrings? (front ++ '\'' :: opened) front.byteLength =
      .ok ((Literal.read? ('\'' :: opened)).map fun (literal, _) =>
        literal.placed front.byteLength) := by
  rw [readStrings?, readQuoted?_append, ok_bind, Literal.read?]
  cases quoted : Text.splitQuoted? opened with
  | none => rfl
  | some parts =>
      obtain ⟨content, rest⟩ := parts
      have whole : front ++ '\'' :: opened = front ++ content.quote ++ rest := by
        rw [Text.eq_append_of_splitQuoted? quoted]
        simp [Text.quote]
      rw [Option.map_some]
      dsimp only
      rw [whole, readLink?_append, ok_bind]
      cases Literal.readLink? rest with
      | none => rfl
      | some linked =>
          obtain ⟨link, after⟩ := linked
          rw [Option.map_some, Option.map_some]
          dsimp only
          rw [trimBlankLines_eq, ok_bind]
          simp [Literal.placed, Literal.written, Literal.delimiter, Literal.text]
          rfl

/-- Reads a body literal at an offset. -/
def readBody? (text : Text) (start : Nat) : Checked (Option PlacedLiteral) :=
  if text.byte? start = some (byteOf '$') then readDollar? text start
  else if text.byte? start = some (byteOf '\'') then readStrings? text start
  else return none

/-- **Body literals by bytes.** -/
theorem readBody?_append (front rest : Text) :
    readBody? (front ++ rest) front.byteLength =
      .ok ((Literal.read? rest).map fun (literal, _) => literal.placed front.byteLength) := by
  have starts {c : Char} (ascii : c.toNat < 0x80) :
      (front ++ rest).byte? front.byteLength = some (byteOf c) ↔ rest.head? = some c :=
    Text.byte?_head_iff front rest rfl rfl ascii
  rw [readBody?]
  by_cases dollar : rest.head? = some '$'
  · obtain ⟨opened, rfl⟩ := List.head?_eq_some_iff.mp dollar
    rw [if_pos ((starts (by decide)).mpr dollar), readDollar?_append]
    rfl
  · rw [if_neg (mt (starts (by decide)).mp dollar)]
    by_cases quote : rest.head? = some '\''
    · obtain ⟨opened, rfl⟩ := List.head?_eq_some_iff.mp quote
      rw [if_pos ((starts (by decide)).mpr quote), readStrings?_append]
    · rw [if_neg (mt (starts (by decide)).mp quote)]
      have missed : Literal.read? rest = none := by
        unfold Literal.read?
        split
        case h_1 => exact absurd rfl dollar
        case h_2 => exact absurd rfl quote
        case h_3 => rfl
      rw [missed]
      rfl

/-! ### The search for the keyword -/

/-- The step of the search for the keyword of a body. The keyword counts outside parentheses,
`depth` of which are open; a closing parenthesis too many is none. -/
def bodyStep (text : Text) (depth place : Nat) (byte : UInt8) :
    Checked (Nat ⊕ Option PlacedLiteral) :=
  if byte = byteOf '(' then return .inl (depth + 1)
  else if byte = byteOf ')' then return .inl (depth - 1)
  else if (byte = byteOf 'A' ∨ byte = byteOf 'a') ∧ depth = 0 then do
    if ← isKeywordAt text place ['A', 'S'] then do
      let start ← skipWhile isAsciiBlank text (place + 2)
      let literal ← readBody? text start
      return .inr literal
    else return .inl depth
  else return .inl depth

/-- The body literal of a text scanned from an offset. -/
def locate? (text : Text) (start : Nat) : Checked (Option PlacedLiteral) := do
  let places ← topLevelPositions text start
  let found ← readThrough text (bodyStep text) 0 places
  return found.join

/-- Whether `AS` stands at a boundary is told without a fault. -/
theorem isKeywordAt_append (front rest : Text) :
    isKeywordAt (front ++ rest) front.byteLength ['A', 'S'] =
      .ok (Text.keywordAt front.getLast? rest ['A', 'S']) := by
  rw [isKeywordAt_eq (by simp), Text.isKeywordAt, Text.splitAtByte?_append]

/-- What is not read leaves the depth as it is. -/
theorem depthStep_of_not_isRead {glyph : Glyph} (skipped : ¬ glyph.IsRead) (depth : Nat) :
    Glyph.depthStep depth glyph = depth := by
  have misses {target : Char} (ascii : target.toNat < 0x80) :
      ¬ glyph.isTopLevelChar target = true :=
    fun matched => skipped (Glyph.isRead_of_isTopLevelChar matched ascii)
  rw [Glyph.depthStep_eq, if_neg (misses (by decide)), if_neg (misses (by decide))]

/-- Where no keyword starts, the step only counts parentheses. -/
theorem bodyStep_of_not_marks {front : Text} {depth : Nat} {glyph : Glyph} {glyphs : List Glyph}
    (isRead : glyph.IsRead) (notHere : ¬ Text.Marks front.getLast? depth [] glyph glyphs) :
    bodyStep (front ++ Text.ofGlyphs (glyph :: glyphs)) depth front.byteLength
        (byteOf glyph.char) = .ok (.inl (Glyph.depthStep depth glyph)) := by
  rw [bodyStep, Glyph.depthStep_eq, isKeywordAt_append, ok_bind]
  simp only [isRead.byteOf_eq_iff (by decide : '('.toNat < 0x80),
    isRead.byteOf_eq_iff (by decide : ')'.toNat < 0x80)]
  split
  case isTrue => rfl
  split
  case isTrue => rfl
  split
  case isTrue both =>
    have missed : ¬ Text.keywordAt front.getLast? (Text.ofGlyphs (glyph :: glyphs))
        ['A', 'S'] = true :=
      fun keyword => notHere ⟨isRead.1, both.2, keyword⟩
    rw [if_neg missed]
    rfl
  case isFalse => rfl

/-- The two forms of the letter that the keyword starts with. -/
theorem eq_of_toLower_eq_a {c : Char} (lower : c.toLower = 'a') :
    c.toNat < 0x80 ∧ (c = 'A' ∨ c = 'a') := by
  have ascii : c.toNat < 0x80 := ascii_of_toLower_eq (a := 'a') (by decide) lower.symm
  have all : ∀ n < 0x80, (Char.ofNat n).toLower = 'a' →
      Char.ofNat n = 'A' ∨ Char.ofNat n = 'a' := by
    decide +kernel
  have here := all c.toNat ascii
  rw [Char.ofNat_toNat] at here
  exact ⟨ascii, here lower⟩

/-- At the keyword, the literal after it is read. -/
theorem bodyStep_of_marks {front : Text} {depth : Nat} {glyph second : Glyph}
    {others : List Glyph} (isA : glyph.char.toLower = 'a') (isS : second.char.toLower = 's')
    (here : Text.Marks front.getLast? depth [] glyph (second :: others)) :
    glyph.IsRead ∧
      bodyStep (front ++ Text.ofGlyphs (glyph :: second :: others)) depth front.byteLength
          (byteOf glyph.char) =
        .ok (.inr ((Literal.read? ((Text.ofGlyphs others).dropWhile isAsciiBlank)).map
          fun (literal, _) => literal.placed
            (front ++ [glyph.char, second.char] ++
              (Text.ofGlyphs others).takeWhile isAsciiBlank).byteLength)) := by
  obtain ⟨topLevel, outside, word⟩ := here
  have keyword : Text.keywordAt front.getLast? (Text.ofGlyphs (glyph :: second :: others))
      ['A', 'S'] = true := word
  obtain ⟨ascii, letter⟩ := eq_of_toLower_eq_a isA
  have byte : byteOf glyph.char = byteOf 'A' ∨ byteOf glyph.char = byteOf 'a' :=
    letter.imp (congrArg byteOf) (congrArg byteOf)
  have noParen : byteOf glyph.char ≠ byteOf '(' ∧ byteOf glyph.char ≠ byteOf ')' := by
    rcases letter with same | same <;> rw [same] <;> decide
  have words : (front ++ [glyph.char, second.char]).byteLength = front.byteLength + 2 := by
    simp [Text.utf8Size_of_toLower (Or.inl isA), Text.utf8Size_of_toLower (Or.inr isS)]
  have whole : front ++ Text.ofGlyphs (glyph :: second :: others) =
      front ++ [glyph.char, second.char] ++ Text.ofGlyphs others := by
    simp [Text.ofGlyphs]
  have body := readBody?_append
    (front ++ [glyph.char, second.char] ++ (Text.ofGlyphs others).takeWhile isAsciiBlank)
    ((Text.ofGlyphs others).dropWhile isAsciiBlank)
  rw [List.append_assoc _ _ ((Text.ofGlyphs others).dropWhile isAsciiBlank),
    List.takeWhile_append_dropWhile] at body
  refine ⟨⟨topLevel, ascii⟩, ?_⟩
  rw [bodyStep, if_neg noParen.1, if_neg noParen.2, if_pos ⟨byte, outside⟩, isKeywordAt_append,
    ok_bind, if_pos keyword, whole, ← words, skipBlanks_append, ok_bind, body, ok_bind]
  rfl

/-- **The search for a body among glyphs.** -/
theorem readGlyphs_body (front : Text) (depth : Nat) (glyphs : List Glyph) :
    readGlyphs (bodyStep (front ++ Text.ofGlyphs glyphs)) depth front.byteLength glyphs =
      .ok ((Text.splitAs? front.getLast? depth glyphs).map fun (words, rest) =>
        (Literal.read? (rest.dropWhile isAsciiBlank)).map fun (literal, _) =>
          literal.placed (front ++ words ++ rest.takeWhile isAsciiBlank).byteLength) := by
  induction glyphs generalizing front depth with
  | nil => rfl
  | cons glyph glyphs ih =>
      by_cases here : Text.Marks front.getLast? depth [] glyph glyphs
      · obtain ⟨second, others, rfl, isA, isS, found⟩ := Text.splitAs?_of_marks here
        obtain ⟨isRead, step⟩ := bodyStep_of_marks isA isS here
        rw [readGlyphs, if_pos isRead, step, ok_bind, found]
        rfl
      · have later := ih (front ++ [glyph.char]) (Glyph.depthStep depth glyph)
        have whole : front ++ [glyph.char] ++ Text.ofGlyphs glyphs =
            front ++ Text.ofGlyphs (glyph :: glyphs) := by
          simp [Text.ofGlyphs]
        have size : (front ++ [glyph.char]).byteLength =
            front.byteLength + glyph.char.utf8Size := by
          simp
        rw [whole, size, List.getLast?_concat] at later
        rw [readGlyphs, Text.splitAs?_of_not_marks here, Option.map_map]
        simp only [List.append_assoc, List.singleton_append] at later
        split
        case isTrue isRead =>
          rw [bodyStep_of_not_marks isRead here, ok_bind]
          simpa [Function.comp_def, Nat.add_assoc] using later
        case isFalse skipped =>
          rw [depthStep_of_not_isRead skipped] at later ⊢
          simpa [Function.comp_def, Nat.add_assoc] using later

/-- **Locating a body by bytes.** From any offset, the reader makes no access that fails. -/
theorem locate?_eq (text : Text) (start : Nat) :
    locate? text start = .ok ((Literal.locateAt? text start).map
      fun (literal, first, _) => literal.placed first) := by
  cases left : text.dropBytes start with
  | mk cut rest =>
    have ignores : IgnoresUpper (bodyStep text) := by
      intro depth place byte upper
      have differs {d : Char} (ascii : d.toNat < 0x80) : byte ≠ byteOf d :=
        ne_byteOf_of_le upper ascii
      rw [bodyStep, if_neg (differs (by decide)), if_neg (differs (by decide)),
        if_neg fun both => both.1.elim (differs (by decide)) (differs (by decide))]
      rfl
    rw [locate?, topLevelPositions_eq, ok_bind]
    rcases Literal.locateAt?_cases left with ⟨missed, nowhere⟩ | ⟨base, whole, size, answer⟩
    · rw [missed, nowhere]
      rfl
    · have found := readGlyphs_body base 0 rest.scan
      rw [Text.ofGlyphs_scan, ← whole, size] at found
      rw [readThrough_topLevelPositions ignores left, found, ok_bind, answer, Literal.locate?]
      cases Text.splitAs? base.getLast? 0 rest.scan with
      | none => rfl
      | some parts =>
          obtain ⟨words, after⟩ := parts
          simp [Function.comp_def, List.append_assoc]
          rfl

/-- The body literal is located from a boundary on without a fault. -/
theorem locate?_append (front rest : Text) :
    locate? (front ++ rest) front.byteLength =
      .ok ((Literal.locate? front.getLast? rest).map fun (leading, literal, _) =>
        literal.placed (front ++ leading).byteLength) := by
  rw [locate?_eq, Literal.locateAt?, Text.dropBytes_append, Text.splitAtByte?_append]
  simp [Function.comp_def]

end Checked

end RoutineScripts
