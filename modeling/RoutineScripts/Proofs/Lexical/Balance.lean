import RoutineScripts.Proofs.Lexical.Structure

/-!
# Balanced texts

A text is read before a closing parenthesis as it is read on its own, because a parenthesis
continues no delimiter (`ScanState.after_append_detached`). So a text whose own scan ends in plain
mode settles there (`Text.settles_of_endMode`), and so does a text that settles before any other one
(`Text.Settles.detached`). If its parentheses balance as well, the parenthesis that follows it is
the one that closes (`Text.splitParens?_of_balances`).
-/

namespace RoutineScripts

/-- No other character separates inside a dollar tag. -/
theorem IsDollarTag.not_mem {tag : Text} (isTag : IsDollarTag tag) {z : Char}
    (separates : isIdentifierChar z = false) (noDollar : z ≠ '$') : z ∉ tag := by
  obtain ⟨name, rfl, identifiers⟩ := isTag
  intro member
  simp only [List.mem_cons, List.mem_append, List.not_mem_nil, or_false] at member
  rcases member with dollar | inName | dollar
  · exact noDollar dollar
  · simp [identifiers z inName] at separates
  · exact noDollar dollar

theorem Text.isPrefixOf_append_cons {lead : Text} {z : Char} (absent : z ∉ lead)
    (front back : Text) : lead.isPrefixOf (front ++ z :: back) = lead.isPrefixOf front := by
  rw [Bool.eq_iff_iff, List.isPrefixOf_iff_prefix, List.isPrefixOf_iff_prefix]
  constructor
  · rintro ⟨rest, split⟩
    obtain ⟨more, whole, _⟩ := exists_append_of_not_mem split.symm absent
    exact ⟨more, whole.symm⟩
  · exact fun leads => leads.trans (List.prefix_append _ _)

/-- A character that belongs to no identifier and to no delimiter. -/
structure Detached (c : Char) : Prop where
  separates : isIdentifierChar c = false := by decide
  undelimited : c ∉ ['-', '/', '*', '$', '\'', '"'] := by decide

theorem detached_newline : Detached '\n' := {}

theorem detached_space : Detached ' ' := {}

theorem detached_close : Detached ')' := {}

namespace Mode

/-- No transition takes more characters than there are. -/
theorem skip_advance_le (mode : Mode) (c : Char) (rest : Text) :
    (mode.advance c rest).skip ≤ rest.length + 1 := by
  have pair {d : Char} (next : rest.head? = some d) : 2 ≤ rest.length + 1 := by
    cases rest with
    | nil => cases next
    | cons e rest => simp
  cases mode <;> simp only [advance]
  case normal =>
    split
    case isTrue opens => exact pair opens.2
    split
    case isTrue opens => exact pair opens.2
    split
    case h_1 tag found =>
      obtain ⟨after, split⟩ := exists_append_of_dollarTag? found
      have length := congrArg List.length split
      simp only [List.length_cons, List.length_append] at length
      exact (by omega : tag.length ≤ rest.length + 1)
    case h_2 =>
      split
      · simp
      split <;> simp
  case lineComment => split <;> simp
  case blockComment =>
    split
    case isTrue closes => exact pair closes.2
    case isFalse => simp
  case singleQuoted =>
    split
    · split
      case isTrue doubled => exact pair doubled
      case isFalse => simp
    · simp
  case doubleQuoted => split <;> simp
  case dollarQuoted tag =>
    split
    case isTrue closes => simpa using (List.isPrefixOf_iff_prefix.mp closes).length_le
    case isFalse => simp

/-- A character that continues no delimiter leaves the transitions before it as they are. A quote
continues one only directly after the quote that would end a literal. -/
theorem advance_append_cons {mode : Mode} (proper : mode.Proper) {z c : Char} {front : Text}
    (separates : isIdentifierChar z = false) (undelimited : z ∉ ['-', '/', '*', '$'])
    (unpaired : z = '\'' → ¬ (mode = .singleQuoted ∧ c = '\'' ∧ front = [])) (back : Text) :
    mode.advance c (front ++ z :: back) = mode.advance c front := by
  simp only [List.mem_cons, List.not_mem_nil, or_false, not_or] at undelimited
  obtain ⟨dash, slash, star, dollar⟩ := undelimited
  have next {d : Char} (differs : z ≠ d) :
      (front ++ z :: back).head? = some d ↔ front.head? = some d := by
    cases front <;> simp [differs]
  have tag : dollarTag? (c :: (front ++ z :: back)) = dollarTag? (c :: front) := by
    have closes : ((front ++ z :: back).dropWhile isIdentifierChar).head? = some '$' ↔
        (front.dropWhile isIdentifierChar).head? = some '$' := by
      rw [Text.dropWhile_append_cons separates]
      cases front.dropWhile isIdentifierChar <;> simp [dollar]
    simp only [dollarTag?_cons, closes, Text.takeWhile_append_cons separates]
  cases mode with
  | dollarQuoted tag =>
      have absent := IsDollarTag.not_mem proper separates dollar
      simp only [advance, ← List.cons_append, Text.isPrefixOf_append_cons absent]
  | singleQuoted =>
      by_cases quote : c = '\''
      · cases front with
        | nil =>
            have differs : z ≠ '\'' := fun same => unpaired same ⟨rfl, quote, rfl⟩
            simp only [advance, next differs]
        | cons d front => rfl
      · simp only [advance, quote, if_false]
  | _ => simp only [advance, next dash, next star, next slash, tag]

/-- A character that no delimiter holds leaves the transitions before it as they are. -/
theorem advance_append_detached {mode : Mode} (proper : mode.Proper) {z : Char}
    (detached : Detached z) (c : Char) (front back : Text) :
    mode.advance c (front ++ z :: back) = mode.advance c front := by
  have undelimited := detached.undelimited
  simp only [List.mem_cons, List.not_mem_nil, or_false, not_or] at undelimited
  obtain ⟨dash, slash, star, dollar, quote, _⟩ := undelimited
  refine advance_append_cons proper detached.separates ?_ (fun same => absurd same quote) back
  simp [dash, slash, star, dollar]

/-- A dollar tag that is not read in a front on its own goes beyond it. -/
theorem dollarTag?_append (c : Char) (front back : Text) :
    dollarTag? (c :: (front ++ back)) = dollarTag? (c :: front) ∨
      c = '$' ∧ ∃ tag, dollarTag? (c :: (front ++ back)) = some tag ∧
        front.length + 1 < tag.length := by
  cases closed : front.dropWhile isIdentifierChar with
  | nil =>
      have whole : front.takeWhile isIdentifierChar = front := by
        have split := List.takeWhile_append_dropWhile (p := isIdentifierChar) (l := front)
        rwa [closed, List.append_nil] at split
      have identifiers : ∀ d ∈ front, isIdentifierChar d = true :=
        List.all_eq_true.mp (whole ▸ List.all_takeWhile)
      rw [dollarTag?_cons, dollarTag?_cons, closed, List.takeWhile_append_of_pos identifiers,
        List.dropWhile_append_of_pos identifiers]
      split
      case isTrue opens =>
        exact Or.inr ⟨opens.1, _, rfl, by simp only [List.length_cons, List.length_append]; omega⟩
      case isFalse => exact Or.inl (by simp)
  | cons d rest =>
      have fails : isIdentifierChar d = false := by
        simpa [closed] using List.head?_dropWhile_not isIdentifierChar front
      have whole : front = front.takeWhile isIdentifierChar ++ d :: rest := by
        rw [← closed, List.takeWhile_append_dropWhile]
      rw [whole, List.append_assoc, List.cons_append, dollarTag?_congr _ _ _ fails]
      exact Or.inl rfl

/-- A transition sees what follows a front only where it takes some of it. -/
theorem advance_append (mode : Mode) (c : Char) (front back : Text) :
    mode.advance c (front ++ back) = mode.advance c front ∨
      front.length + 1 < (mode.advance c (front ++ back)).skip := by
  cases mode with
  | normal =>
      rcases dollarTag?_append c front back with same | ⟨rfl, tag, found, long⟩
      · cases front with
        | cons d front =>
            rw [List.cons_append] at same ⊢
            exact Or.inl (by simp only [advance, same]; rfl)
        | nil =>
            rw [List.nil_append] at same ⊢
            by_cases dash : c = '-' ∧ back.head? = some '-'
            · exact Or.inr (by simp [advance, dash])
            by_cases slash : c = '/' ∧ back.head? = some '*'
            · exact Or.inr (by simp [advance, slash])
            exact Or.inl (by simp [advance, dash, slash, same])
      · exact Or.inr (by simpa [advance, found] using long)
  | blockComment =>
      cases front with
      | cons d front => exact Or.inl rfl
      | nil =>
          by_cases closes : c = '*' ∧ back.head? = some '/'
          · exact Or.inr (by simp [advance, closes])
          · exact Or.inl (by simp [advance, closes])
  | singleQuoted =>
      cases front with
      | cons d front => exact Or.inl rfl
      | nil =>
          by_cases doubled : back.head? = some '\''
          · by_cases quote : c = '\''
            · exact Or.inr (by simp [advance, quote, doubled])
            · exact Or.inl (by simp [advance, quote])
          · exact Or.inl (by simp [advance, doubled])
  | lineComment | doubleQuoted => exact Or.inl rfl
  | dollarQuoted tag =>
      by_cases closes : tag.isPrefixOf (c :: (front ++ back)) = true
      · by_cases long : front.length + 1 < tag.length
        · exact Or.inr (by simpa only [advance, closes, if_true] using long)
        · have within : tag <+: c :: front :=
            List.prefix_of_prefix_length_le (List.isPrefixOf_iff_prefix.mp closes)
              (List.prefix_append (c :: front) back) (by simpa using long)
          exact Or.inl (by simp only [advance, closes, List.isPrefixOf_iff_prefix.mpr within])
      · have goesOn : ¬ tag.isPrefixOf (c :: front) = true := fun within => by
          rw [List.isPrefixOf_iff_prefix] at closes within
          exact closes (within.trans (List.prefix_append (c :: front) back))
        exact Or.inl (by simp only [advance, closes, goesOn])

end Mode

namespace ScanState

/-- **Detached fronts.** Before a character that no delimiter holds, a front is read as on its
own. -/
theorem after_append_detached {state : ScanState} (proper : state.mode.Proper) {z : Char}
    (detached : Detached z) (front back : Text) :
    state.after front (z :: back) = state.after front [] ∧
      state.glyphs front (z :: back) = state.glyphs front [] := by
  induction front generalizing state with
  | nil => exact ⟨rfl, rfl⟩
  | cons c front ih =>
      have step := Mode.advance_append_detached proper detached c front back
      have sameNext : state.next c (front ++ z :: back) = state.next c front := by
        simp only [next, step]
      have sameGlyph : state.glyph c (front ++ z :: back) = state.glyph c front := by
        simp only [glyph, step]
      have further : (state.next c front).mode.Proper := by
        simpa [after] using proper_after proper [c] front
      obtain ⟨reached, read⟩ := ih further
      simp only [after, glyphs, List.append_nil, sameNext, sameGlyph, reached, read, and_self]

/-- **Fronts on their own.** A front that leaves the scan in plain text is read as on its own. -/
theorem after_alone {state : ScanState} {front back : Text}
    (plain : (state.after front back).IsPlain) :
    state.after front [] = state.after front back ∧
      state.glyphs front [] = state.glyphs front back := by
  induction front generalizing state with
  | nil => exact ⟨rfl, rfl⟩
  | cons c front ih =>
      obtain ⟨before, mode, pending⟩ := state
      have same : ScanState.next ⟨before, mode, pending⟩ c (front ++ back) =
            ScanState.next ⟨before, mode, pending⟩ c (front ++ []) ∧
          ScanState.glyph ⟨before, mode, pending⟩ c (front ++ back) =
            ScanState.glyph ⟨before, mode, pending⟩ c (front ++ []) := by
        cases pending with
        | succ pending => exact ⟨rfl, rfl⟩
        | zero =>
            rw [List.append_nil]
            rcases mode.advance_append c front back with step | long
            · exact ⟨by simp only [next, step], by simp only [glyph, step]⟩
            · -- A transition that takes more than the front is not over at its end.
              have within : front.length ≤
                  (ScanState.next ⟨before, mode, 0⟩ c (front ++ back)).pending := by
                simp only [next]
                omega
              have ended := plain.2
              rw [after, after_of_length_le _ back within] at ended
              simp only [next] at ended
              omega
      rw [after] at plain
      obtain ⟨states, rest⟩ := ih plain
      rw [after, after, glyphs, glyphs, same.1, same.2]
      rw [same.1] at states rest
      rw [states, rest]
      exact ⟨rfl, rfl⟩

/-- At the end of a text no characters of a transition are missing. -/
theorem pending_after {state : ScanState} {front : Text} (within : state.pending ≤ front.length) :
    (state.after front []).pending = 0 := by
  induction front generalizing state with
  | nil => exact Nat.le_zero.mp within
  | cons c front ih =>
      refine ih ?_
      simp only [next, List.append_nil]
      cases pending : state.pending with
      | zero =>
          have taken := state.mode.skip_advance_le c front
          simp only
          omega
      | succ rest =>
          rw [pending, List.length_cons] at within
          exact Nat.le_of_succ_le_succ within

end ScanState

namespace Text

/-- The mode in which the scan of a text ends. -/
def endMode (text : Text) : Mode :=
  (text.scan.getLast?.map Glyph.after).getD .normal

/-- The scan of a text is its glyphs with nothing after it. -/
theorem scan_eq_glyphs (text : Text) : text.scan = glyphs text [] := by
  have whole := ScanState.start.scan_append text []
  rw [ScanState.scan_nil, List.append_nil, List.append_nil] at whole
  exact whole

/-- The mode at the end of a text is that of its last state. -/
theorem endMode_eq (text : Text) : text.endMode = (ScanState.start.after text []).mode := by
  have last {state : ScanState} : ((state.glyphs text []).getLast?.map Glyph.after).getD
      state.mode = (state.after text []).mode := by
    induction text generalizing state with
    | nil => rfl
    | cons c rest ih =>
        have here : (state.glyph c (rest ++ [])).after = (state.next c (rest ++ [])).mode := by
          simp only [ScanState.glyph, ScanState.next]
          split <;> rfl
        rw [ScanState.after, ← ih, ScanState.glyphs, List.getLast?_cons, ← here]
        cases ((state.next c (rest ++ [])).glyphs rest []).getLast? <;> rfl
  rw [endMode, scan_eq_glyphs]
  exact last

/-- **Closed texts.** A text whose own scan ends in plain mode settles before a character that no
delimiter holds, and is read there as on its own. -/
theorem settles_of_endMode {text : Text} (closed : text.endMode = .normal) {z : Char}
    (detached : Detached z) (back : Text) :
    Settles text (z :: back) ∧ glyphs text (z :: back) = text.scan := by
  have proper : ScanState.start.mode.Proper := trivial
  obtain ⟨reached, read⟩ := ScanState.after_append_detached proper detached text back
  rw [endMode_eq] at closed
  rw [Settles, reached, scan_eq_glyphs]
  exact ⟨⟨closed, ScanState.pending_after (Nat.zero_le _)⟩, read⟩

/-- A front that settles before some text settles before a character that no delimiter holds, and is
read there in the same way. -/
theorem Settles.detached {front back : Text} (settles : Settles front back) {z : Char}
    (detached : Detached z) (other : Text) :
    Settles front (z :: other) ∧ glyphs front (z :: other) = glyphs front back := by
  have proper : ScanState.start.mode.Proper := trivial
  obtain ⟨alone, aloneGlyphs⟩ := ScanState.after_alone settles
  obtain ⟨reached, read⟩ := ScanState.after_append_detached proper detached front other
  rw [Settles, glyphs, glyphs, reached, read, alone, aloneGlyphs]
  exact ⟨settles, rfl⟩

/-! ### What a search passes over -/

/-- A front that settles and does not hold a character at top level. -/
structure Passes (target : Char) (front back : Text) : Prop where
  settles : Settles front back
  none : ∀ glyph ∈ glyphs front back, glyph.isTopLevelChar target = false

theorem Passes.append {target : Char} {front middle back : Text}
    (first : Passes target front (middle ++ back)) (second : Passes target middle back) :
    Passes target (front ++ middle) back := by
  refine ⟨first.settles.append second.settles, ?_⟩
  rw [first.settles.glyphs_append]
  exact List.forall_mem_append.mpr ⟨first.none, second.none⟩

/-- A search passes over plain characters other than its target. -/
theorem passes_of_plain {target : Char} {front : Text} (absent : target ∉ front)
    (plain : ∀ c ∈ front, c ∉ ['-', '/', '$', '\'', '"']) (back : Text) :
    Passes target front back :=
  ⟨settles_of_plain plain back, isTopLevelChar_of_not_mem absent back⟩

/-- A search passes over one plain character other than its target. -/
theorem passes_singleton {target c : Char} (differs : target ≠ c)
    (plain : c ∉ ['-', '/', '$', '\'', '"']) (back : Text) : Passes target [c] back :=
  passes_of_plain (by simpa using differs) (List.forall_mem_singleton.mpr plain) back

/-- A search passes over a closed text without its target, before a detached character. -/
theorem passes_of_endMode {target : Char} {text : Text} (closed : text.endMode = .normal)
    (none : ∀ glyph ∈ text.scan, glyph.isTopLevelChar target = false) {z : Char}
    (detached : Detached z) (back : Text) : Passes target text (z :: back) := by
  obtain ⟨settles, read⟩ := settles_of_endMode closed detached back
  exact ⟨settles, read ▸ none⟩

/-! ### Parentheses -/

/-- Number of top-level parentheses that some glyphs open. -/
def opens (glyphs : List Glyph) : Nat :=
  glyphs.countP (·.isTopLevelChar '(')

/-- Number of top-level parentheses that some glyphs close. -/
def closes (glyphs : List Glyph) : Nat :=
  glyphs.countP (·.isTopLevelChar ')')

/-- Some glyphs close `depth` open parentheses and all that they open, and none before it is
open. -/
structure Balances (depth : Nat) (glyphs : List Glyph) : Prop where
  never : ∀ n ≤ glyphs.length, closes (glyphs.take n) ≤ depth + opens (glyphs.take n)
  even : closes glyphs = depth + opens glyphs

instance (depth : Nat) (glyphs : List Glyph) : Decidable (Balances depth glyphs) :=
  decidable_of_iff ((∀ n ≤ glyphs.length, closes (glyphs.take n) ≤ depth + opens (glyphs.take n)) ∧
      closes glyphs = depth + opens glyphs)
    ⟨fun ⟨never, even⟩ => ⟨never, even⟩, fun ⟨never, even⟩ => ⟨never, even⟩⟩

theorem opens_cons (glyph : Glyph) (glyphs : List Glyph) :
    opens (glyph :: glyphs) = opens glyphs + if glyph.isTopLevelChar '(' then 1 else 0 :=
  List.countP_cons

theorem closes_cons (glyph : Glyph) (glyphs : List Glyph) :
    closes (glyph :: glyphs) = closes glyphs + if glyph.isTopLevelChar ')' then 1 else 0 :=
  List.countP_cons

/-- Balance after the first glyph, at the depth that it leads to. -/
theorem Balances.tail {depth deeper : Nat} {glyph : Glyph} {glyphs : List Glyph}
    (balances : Balances depth (glyph :: glyphs))
    (step : deeper + (if glyph.isTopLevelChar ')' then 1 else 0) =
      depth + if glyph.isTopLevelChar '(' then 1 else 0) : Balances deeper glyphs := by
  refine ⟨fun n within => ?_, ?_⟩
  · have never := balances.never (n + 1) (Nat.succ_le_succ within)
    rw [List.take_succ_cons, opens_cons, closes_cons] at never
    omega
  · have even := balances.even
    rw [opens_cons, closes_cons] at even
    omega

/-- A closing parenthesis is no opening one. -/
theorem not_opens_of_closes {glyph : Glyph} (closes : glyph.isTopLevelChar ')' = true) :
    glyph.isTopLevelChar '(' = false := by
  have char := Glyph.char_of_isTopLevelChar closes
  simp [Glyph.isTopLevelChar, char]

/-- The parenthesis that closes is the first one after glyphs that balance. -/
theorem splitClosing?_of_balances {depth : Nat} {glyphs : List Glyph}
    (balances : Balances depth glyphs) {closing : Glyph}
    (matched : closing.isTopLevelChar ')' = true) (rest : List Glyph) :
    splitClosing? depth (glyphs ++ closing :: rest) = some (glyphs, rest) := by
  induction glyphs generalizing depth with
  | nil =>
      have even : 0 = depth := by simpa [opens, closes] using balances.even
      subst even
      simp [splitClosing?, matched]
  | cons glyph glyphs ih =>
      cases closes : glyph.isTopLevelChar ')' with
      | true =>
          have notOpening := not_opens_of_closes closes
          have positive : 1 ≤ depth := by
            simpa [Text.opens, Text.closes, closes, notOpening] using balances.never 1 (by simp)
          obtain ⟨depth, rfl⟩ := Nat.exists_eq_add_of_le' positive
          have inner : Balances depth glyphs := balances.tail (by simp [closes, notOpening])
          simp [splitClosing?, closes, ih inner]
      | false =>
          have inner : Balances (if glyph.isTopLevelChar '(' then depth + 1 else depth) glyphs :=
            balances.tail (by rw [closes]; split <;> rfl)
          simp [splitClosing?, closes, ih inner]

/-- **Matching parentheses.** The parenthesis after a closed text whose own parentheses balance
is the one that closes. -/
theorem splitParens?_of_balances {text : Text} (closed : text.endMode = .normal)
    (balances : Balances 0 text.scan) (rest : Text) :
    splitParens? (text ++ ')' :: rest) = some (text, rest) := by
  obtain ⟨settles, read⟩ := settles_of_endMode closed detached_close rest
  rw [splitParens?, settles.scan_append, scan_cons_of_plain (by decide), read,
    splitClosing?_of_balances balances rfl]
  simp

end Text

end RoutineScripts
