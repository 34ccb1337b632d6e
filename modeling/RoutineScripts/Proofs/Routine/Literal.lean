import RoutineScripts.Proofs.Lexical.Structure
import RoutineScripts.Routine.Literal

/-!
# Where a body literal stands

The keyword `AS` that introduces a body is found at top level, so the text up to it settles, and
only the first character after it has a part in finding it (`Text.splitAs?_congr`). A dollar-quoted
literal settles as a whole and holds nothing at top level (`Text.settles_dollar`), whatever its
content is.
-/

namespace RoutineScripts

namespace Text

/-- **A dollar-quoted literal is opaque.** It leaves the scan in plain text and holds nothing at top
level, whatever stands between its tags. -/
theorem settles_dollar {tag content : Text} (isTag : IsDollarTag tag)
    (first : FirstAfter tag content (content ++ tag)) (back : Text) :
    Settles (tag ++ content ++ tag) back ∧
      ∀ glyph ∈ glyphs (tag ++ content ++ tag) back, glyph.isTopLevel = false := by
  obtain ⟨rest, rfl⟩ : ∃ rest, tag = '$' :: rest := by
    obtain ⟨name, shape, _⟩ := isTag
    exact ⟨_, shape⟩
  have opens (tail : Text) : Mode.normal.advance '$' (rest ++ tail) =
      ⟨.dollarQuoted ('$' :: rest), rest.length + 1⟩ := by
    have read : dollarTag? ('$' :: (rest ++ tail)) = some ('$' :: rest) :=
      dollarTag?_eq_some_iff.mpr ⟨isTag, tail, rfl⟩
    simp [Mode.advance, read]
  have closes : (Mode.dollarQuoted ('$' :: rest)).advance '$' (rest ++ back) =
      ⟨.normal, rest.length + 1⟩ := by
    simp [Mode.advance]
  have whole : FirstAfter ('$' :: rest) content (content ++ ('$' :: rest ++ back)) := by
    rw [← List.append_assoc]
    exact first.append back
  obtain ⟨opened, openGlyphs⟩ := ScanState.after_of_advance .normal
    (opens (content ++ ('$' :: rest ++ back)))
  obtain ⟨mode, pending, contentGlyphs⟩ := ScanState.after_content .normal whole
  have inside : ScanState.start.after ('$' :: rest ++ content) ('$' :: rest ++ back) =
      ScanState.after ⟨.normal, .dollarQuoted ('$' :: rest), 0⟩ content ('$' :: rest ++ back) := by
    rw [ScanState.after_append, ScanState.start, opened]
  generalize reached : ScanState.after ⟨.normal, .dollarQuoted ('$' :: rest), 0⟩ content
    ('$' :: rest ++ back) = state at mode pending inside
  obtain ⟨before, _, _⟩ := state
  cases mode
  cases pending
  obtain ⟨closed, closeGlyphs⟩ := ScanState.after_of_advance before closes
  constructor
  · rw [Settles, ScanState.after_append, inside, closed]
    exact ⟨rfl, rfl⟩
  · rw [glyphs, ScanState.glyphs_append, inside, ScanState.glyphs_append, ScanState.start, opened]
    simp only [List.mem_append]
    rintro glyph ((first | second) | third)
    · exact openGlyphs glyph first
    · exact contentGlyphs glyph second
    · exact closeGlyphs glyph third

/-- The keyword of a body is two letters with no identifier character after them. -/
theorem eq_cons_of_keywordAt {previous : Option Char} {text : Text}
    (found : keywordAt previous text ['A', 'S'] = true) :
    ∃ a b tail, text = a :: b :: tail ∧ a.toLower = 'a' ∧ b.toLower = 's' ∧
      tail.head?.any isIdentifierChar = false := by
  unfold keywordAt at found
  split at found
  case h_1 => cases found
  case h_2 after read =>
    have ends : after.head?.any isIdentifierChar = false := by
      simpa using (Bool.and_eq_true_iff.mp found).2
    rcases text with _ | ⟨a, _ | ⟨b, tail⟩⟩
    · cases read
    · simp only [afterCaseless?] at read
      split at read <;> cases read
    · simp only [afterCaseless?] at read
      split at read
      case isTrue first =>
        split at read
        case isTrue second =>
          cases read
          exact ⟨a, b, _, rfl, first.symm, second.symm, ends⟩
        case isFalse => cases read
      case isFalse => cases read

/-- Only three characters have a part in reading the keyword of a body. -/
theorem keywordAt_take (previous : Option Char) (text : Text) :
    keywordAt previous (text.take 3) ['A', 'S'] = keywordAt previous text ['A', 'S'] := by
  rcases text with _ | ⟨a, _ | ⟨b, _ | ⟨c, rest⟩⟩⟩
  · rfl
  · rfl
  · rfl
  · simp only [keywordAt, afterCaseless?, List.take_succ_cons]
    by_cases first : 'A'.toLower = a.toLower
    · by_cases second : 'S'.toLower = b.toLower <;> simp only [first, second, if_true, if_false]
      rfl
    · simp only [first, if_false]

/-- The letters of the keyword open and close nothing. -/
theorem plain_of_toLower {c : Char} (letter : c.toLower = 'a' ∨ c.toLower = 's') :
    c ∉ ['-', '/', '$', '\'', '"'] ∧ c ∉ ['\'', '"', '\n', '\r'] := by
  have differs (d : Char) (other : d.toLower ≠ 'a' ∧ d.toLower ≠ 's') : c ≠ d := by
    rintro rfl
    rcases letter with same | same
    · exact other.1 same
    · exact other.2 same
  simp only [List.mem_cons, List.not_mem_nil, or_false, not_or]
  refine ⟨⟨?_, ?_, ?_, ?_, ?_⟩, ?_, ?_, ?_, ?_⟩ <;> exact differs _ (by decide)

/-- **The keyword of a body.** It is found by the glyphs up to it and the character after it. -/
theorem splitAs?_congr {previous : Option Char} {depth : Nat} {glyphs : List Glyph}
    {before after : Text} (found : splitAs? previous depth glyphs = some (before, after)) :
    ∃ passed first second rest, glyphs = passed ++ first :: second :: rest ∧
      before = ofGlyphs (passed ++ [first, second]) ∧ after = ofGlyphs rest ∧
      first.isTopLevel = true ∧ first.char.toLower = 'a' ∧ second.char.toLower = 's' ∧
      after.head?.any isIdentifierChar = false ∧
      ∀ other, (ofGlyphs other).head? = after.head? →
        splitAs? previous depth (passed ++ first :: second :: other) =
          some (before, ofGlyphs other) := by
  induction glyphs generalizing previous depth before with
  | nil => cases found
  | cons glyph rest ih =>
      simp only [splitAs?] at found
      split at found
      case isTrue here =>
        obtain ⟨rfl, rfl⟩ := Prod.mk.inj (Option.some.inj found)
        simp only [Bool.and_eq_true] at here
        obtain ⟨a, b, tail, shape, isA, isS, ends⟩ := eq_cons_of_keywordAt here.2
        rcases rest with _ | ⟨second, rest⟩
        · simp [ofGlyphs] at shape
        have chars : glyph.char = a ∧ second.char = b ∧ ofGlyphs (rest.take 1) = tail := by
          simpa [ofGlyphs] using shape
        obtain ⟨rfl, rfl, rfl⟩ := chars
        refine ⟨[], glyph, second, rest, rfl, rfl, rfl, here.1.1, isA, isS, ?_, ?_⟩
        · cases rest with
          | nil => rfl
          | cons third others => simpa [ofGlyphs] using ends
        · intro other same
          have seen : ofGlyphs ((glyph :: second :: other).take 3) =
              ofGlyphs ((glyph :: second :: rest).take 3) := by
            cases other <;> cases rest <;> simp_all [ofGlyphs]
          rw [List.nil_append, splitAs?, seen, if_pos (by simpa using here)]
          rfl
      case isFalse notHere =>
        simp only [Option.map_eq_some_iff, Prod.exists, Prod.mk.injEq] at found
        obtain ⟨later, tail, foundLater, rfl, rfl⟩ := found
        obtain ⟨passed, first, second, others, rfl, rfl, rfl, topLevel, isA, isS, ends, again⟩ :=
          ih foundLater
        refine ⟨glyph :: passed, first, second, others, rfl, rfl, rfl, topLevel, isA, isS, ends,
          fun other same => ?_⟩
        have seen : (glyph :: (passed ++ first :: second :: other)).take 3 =
            (glyph :: (passed ++ first :: second :: others)).take 3 := by
          rcases passed with _ | ⟨_, _ | ⟨_, _⟩⟩ <;> rfl
        rw [List.cons_append, splitAs?, seen, if_neg notHere]
        simp only [again other same]
        rfl

/-- The text up to the keyword of a body settles, and only the first character after it has a part
in finding it. -/
theorem settles_of_splitAs? {previous : Option Char} {text before after : Text}
    (found : splitAs? previous 0 text.scan = some (before, after)) (more : after ≠ []) :
    ∀ other : Text, other.head? = after.head? →
      Settles before other ∧
        splitAs? previous 0 (scan (before ++ other)) = some (before, other) := by
  obtain ⟨passed, first, second, rest, split, rfl, rfl, topLevel, isA, isS, ends, again⟩ :=
    splitAs?_congr found
  obtain ⟨firstOpens, firstCloses⟩ := plain_of_toLower (Or.inl isA)
  obtain ⟨secondOpens, _⟩ := plain_of_toLower (Or.inr isS)
  obtain ⟨whole, _, settled⟩ := settles_of_scan_eq split topLevel firstCloses
  have settles : Settles (ofGlyphs (passed ++ [first, second])) (ofGlyphs rest) := by
    rw [ofGlyphs_append]
    refine settled.append (settles_of_plain ?_ _)
    simp only [ofGlyphs, List.map_cons, List.map_nil, List.forall_mem_cons]
    exact ⟨firstOpens, secondOpens, fun c member => absurd member List.not_mem_nil⟩
  have grouped : text.scan = passed ++ [first, second] ++ rest := by
    rw [split]
    simp
  have same : passed ++ [first, second] =
      glyphs (ofGlyphs (passed ++ [first, second])) (ofGlyphs rest) := by
    have cut := settles.scan_append
    rw [← ofGlyphs_append, ← grouped, ofGlyphs_scan] at cut
    exact (List.append_inj (grouped.symm.trans cut) (by simp [glyphs, ofGlyphs])).1
  intro other head
  obtain ⟨z, tail, shape⟩ := List.exists_cons_of_ne_nil more
  obtain ⟨otherTail, rfl⟩ : ∃ otherTail, other = z :: otherTail := by
    rw [shape, List.head?_cons] at head
    exact List.head?_eq_some_iff.mp head
  rw [shape, List.head?_cons, Option.any_some] at ends
  rw [shape] at settles same head
  obtain ⟨elsewhere, glyphsSame⟩ := settles.congr ends otherTail
  refine ⟨elsewhere, ?_⟩
  rw [elsewhere.scan_append, glyphsSame, ← same, List.append_assoc]
  have replay := again (scan (z :: otherTail)) (by rw [ofGlyphs_scan, shape, head])
  rw [ofGlyphs_scan] at replay
  exact replay

end Text

namespace Literal

open Text

/-- A dollar-quoted literal is read when its tag comes first at its end. -/
theorem read?_eq_dollar_iff {text tag content after : Text} :
    read? text = some (.dollar tag content, after) ↔
      IsDollarTag tag ∧ text = tag ++ content ++ tag ++ after ∧
        FirstAfter tag content (content ++ tag) := by
  constructor
  · intro found
    unfold read? at found
    split at found
    case h_1 =>
      unfold readDollar? at found
      split at found
      case h_1 => cases found
      case h_2 opening read =>
        simp only [Option.map_eq_some_iff, Prod.exists, Prod.mk.injEq, Literal.dollar.injEq]
          at found
        obtain ⟨inner, rest, split, ⟨rfl, rfl⟩, rfl⟩ := found
        obtain ⟨isTag, tail, whole⟩ := dollarTag?_eq_some_iff.mp read
        rw [whole, List.drop_left] at split
        obtain ⟨rfl, first⟩ := splitFirst?_eq_some_iff.mp split
        exact ⟨isTag, by rw [whole]; simp, first.of_append⟩
    case h_2 =>
      split at found
      case h_1 => cases found
      case h_2 => simp at found
    case h_3 => cases found
  · rintro ⟨isTag, rfl, first⟩
    have read : dollarTag? (tag ++ content ++ tag ++ after) = some tag :=
      dollarTag?_eq_some_iff.mpr ⟨isTag, content ++ tag ++ after, by simp⟩
    have split : splitFirst? tag ((tag ++ content ++ tag ++ after).drop tag.length) =
        some (content, after) := by
      rw [List.append_assoc, List.append_assoc, List.drop_left, ← List.append_assoc]
      exact splitFirst?_eq_some_iff.mpr ⟨rfl, first.append after⟩
    have opened : read? (tag ++ content ++ tag ++ after) =
        readDollar? (tag ++ content ++ tag ++ after) := by
      obtain ⟨name, rfl, _⟩ := isTag
      rfl
    rw [opened, readDollar?, read]
    simp only [split, Option.map_some]

/-- White space opens nothing. -/
theorem plain_of_isAsciiBlank {c : Char} (blank : isAsciiBlank c = true) :
    c ∉ ['-', '/', '$', '\'', '"'] := by
  intro member
  simp only [List.mem_cons, List.not_mem_nil, or_false] at member
  rcases member with rfl | rfl | rfl | rfl | rfl <;> revert blank <;> decide

/-- `leading` leads up to a body: it settles before the tag and ends in the keyword of a body and
white space, whatever follows the tag. -/
structure LeadsTo (previous : Option Char) (leading tag : Text) : Prop where
  settles : ∀ back, Settles leading (tag ++ back)
  keyword : ∃ words gap, leading = words ++ gap ∧ (∀ c ∈ gap, isAsciiBlank c = true) ∧
    ∀ back, splitAs? previous 0 (scan (leading ++ (tag ++ back))) =
      some (words, gap ++ (tag ++ back))

/-- What precedes a dollar-quoted literal leads to it. -/
theorem leadsTo_of_locate? {previous : Option Char} {text leading tag content trailing : Text}
    (found : locate? previous text = some (leading, .dollar tag content, trailing)) :
    LeadsTo previous leading tag ∧ IsDollarTag tag ∧ FirstAfter tag content (content ++ tag) := by
  unfold locate? at found
  split at found
  case h_1 => cases found
  case h_2 words rest keyword =>
    simp only [Option.map_eq_some_iff, Prod.exists, Prod.mk.injEq] at found
    obtain ⟨literal, after, read, rfl, rfl, rfl⟩ := found
    obtain ⟨isTag, whole, first⟩ := read?_eq_dollar_iff.mp read
    refine ⟨?_, isTag, first⟩
    have blank : ∀ c ∈ rest.takeWhile isAsciiBlank, isAsciiBlank c = true :=
      List.all_eq_true.mp List.all_takeWhile
    have shape : rest = rest.takeWhile isAsciiBlank ++ (tag ++ (content ++ tag ++ after)) := by
      have parts : rest = rest.takeWhile isAsciiBlank ++ rest.dropWhile isAsciiBlank :=
        List.takeWhile_append_dropWhile.symm
      rw [whole] at parts
      simpa using parts
    generalize rest.takeWhile isAsciiBlank = gap at blank shape ⊢
    have more : rest ≠ [] := by
      rw [shape]
      simp [isTag.ne_nil]
    have heads (back : Text) : (gap ++ (tag ++ back)).head? = rest.head? := by
      obtain ⟨name, rfl, _⟩ := isTag
      rw [shape]
      cases gap <;> rfl
    constructor
    · intro back
      obtain ⟨settles, _⟩ := settles_of_splitAs? keyword more _ (heads back)
      have plain : ∀ c ∈ gap, c ∉ ['-', '/', '$', '\'', '"'] :=
        fun c member => plain_of_isAsciiBlank (blank c member)
      exact settles.append (settles_of_plain plain _)
    · refine ⟨words, gap, rfl, blank, fun back => ?_⟩
      rw [List.append_assoc]
      exact (settles_of_splitAs? keyword more _ (heads back)).2

/-- A gap before a tag is all of the white space there. -/
theorem span_gap {gap tag : Text} (blank : ∀ c ∈ gap, isAsciiBlank c = true)
    (isTag : IsDollarTag tag) (back : Text) :
    (gap ++ (tag ++ back)).takeWhile isAsciiBlank = gap ∧
      (gap ++ (tag ++ back)).dropWhile isAsciiBlank = tag ++ back := by
  obtain ⟨name, rfl, _⟩ := isTag
  have dollar : ¬ isAsciiBlank '$' = true := by decide
  rw [List.takeWhile_append_of_pos blank, List.dropWhile_append_of_pos blank, List.cons_append,
    List.takeWhile_cons_of_neg dollar, List.dropWhile_cons_of_neg dollar, List.append_nil]
  exact ⟨rfl, rfl⟩

/-- Whatever dollar-quoted literal follows what leads up to a body is the body literal. -/
theorem LeadsTo.locate?_eq {previous : Option Char} {leading tag content : Text}
    (leads : LeadsTo previous leading tag) (isTag : IsDollarTag tag)
    (first : FirstAfter tag content (content ++ tag)) (after : Text) :
    locate? previous (leading ++ (tag ++ content ++ tag) ++ after) =
      some (leading, .dollar tag content, after) := by
  obtain ⟨words, gap, rfl, blank, keyword⟩ := leads.keyword
  have found := keyword (content ++ tag ++ after)
  have shape : words ++ gap ++ (tag ++ content ++ tag) ++ after =
      words ++ gap ++ (tag ++ (content ++ tag ++ after)) := by simp
  have read : read? (tag ++ (content ++ tag ++ after)) = some (.dollar tag content, after) :=
    read?_eq_dollar_iff.mpr ⟨isTag, by simp, first⟩
  rw [locate?, shape, found]
  simp only [span_gap blank isTag, read]
  rfl

/-- A dollar-quoted literal that is cut short cannot be read: its tag would close it too early. -/
theorem read?_eq_none_of_cut {tag content cut missing : Text} (isTag : IsDollarTag tag)
    (first : FirstAfter tag content (content ++ tag))
    (split : cut ++ missing = tag ++ content ++ tag) (short : missing ≠ []) : read? cut = none := by
  cases found : read? cut with
  | none => rfl
  | some pair =>
    obtain ⟨literal, after⟩ := pair
    exfalso
    have whole := eq_append_of_read? found
    cases literal with
    | quoted string link =>
        obtain ⟨name, rfl, _⟩ := isTag
        rw [whole] at split
        have heads := congrArg List.head? split
        simp [written, quote] at heads
    | dollar cutTag inner =>
        obtain ⟨isCutTag, shape, _⟩ := read?_eq_dollar_iff.mp found
        have same : cutTag = tag := by
          have fromCut : dollarTag? (cut ++ missing) = some cutTag :=
            dollarTag?_eq_some_iff.mpr ⟨isCutTag, inner ++ cutTag ++ after ++ missing, by
              rw [shape]; simp⟩
          have fromWhole : dollarTag? (cut ++ missing) = some tag :=
            dollarTag?_eq_some_iff.mpr ⟨isTag, content ++ tag, by rw [split]; simp⟩
          exact Option.some.inj (fromCut.symm.trans fromWhole)
        subst same
        rw [shape] at split
        have inside : content ++ cutTag = inner ++ cutTag ++ (after ++ missing) := by
          simpa using split.symm
        have long := first inner (after ++ missing) inside
        have sizes := congrArg List.length inside
        have lacking : 0 < missing.length := List.length_pos_iff.mpr short
        simp only [List.length_append] at sizes
        omega

/-- A text that is cut inside the literal it leads up to has no body literal. -/
theorem LeadsTo.locate?_eq_none {previous : Option Char} {leading tag content : Text}
    (leads : LeadsTo previous leading tag) (isTag : IsDollarTag tag)
    (first : FirstAfter tag content (content ++ tag)) {cut missing : Text}
    (split : leading ++ (tag ++ content ++ tag) = cut ++ missing) (short : missing ≠ []) :
    locate? previous cut = none := by
  cases located : locate? previous cut with
  | none => rfl
  | some parts =>
    exfalso
    obtain ⟨words, gap, rfl, blank, keyword⟩ := leads.keyword
    unfold locate? at located
    split at located
    case h_1 => cases located
    case h_2 cutWords rest found =>
      simp only [Option.map_eq_some_iff, Prod.exists] at located
      obtain ⟨literal, after, read, _⟩ := located
      have opened : rest.dropWhile isAsciiBlank ≠ [] := by
        intro empty
        rw [empty] at read
        cases read
      have more : rest ≠ [] := by
        rintro rfl
        exact opened rfl
      have heads : (rest ++ missing).head? = rest.head? := by
        cases rest with
        | nil => exact absurd rfl more
        | cons c rest => rfl
      -- The keyword that is found in the cut text is the keyword of the whole text.
      have inCut := (settles_of_splitAs? found more _ heads).2
      have inWhole := keyword (content ++ tag)
      have whole : cut = cutWords ++ rest := by
        have parts := eq_append_of_splitAs? found
        rwa [ofGlyphs_scan] at parts
      have shape : words ++ gap ++ (tag ++ (content ++ tag)) = cutWords ++ (rest ++ missing) := by
        rw [← List.append_assoc cutWords, ← whole, ← split]
        simp
      rw [shape, inCut] at inWhole
      have ends : rest ++ missing = gap ++ (tag ++ (content ++ tag)) := by
        simpa using congrArg Prod.snd (Option.some.inj inWhole)
      have literals := congrArg (List.dropWhile isAsciiBlank) ends
      rw [(span_gap blank isTag _).2, List.dropWhile_append, if_neg (by simpa using opened),
        ← List.append_assoc] at literals
      rw [read?_eq_none_of_cut isTag first literals short] at read
      cases read

end Literal

end RoutineScripts
