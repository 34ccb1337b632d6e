import RoutineScripts.Proofs.Lexical.Position
import RoutineScripts.Proofs.Lexical.Token

/-!
# The scanner refines the lexical grammar

The scan of a text goes through its tokens one by one. In front of a token the scan is in plain
text, or at the line break that ends a comment (`ScanState.Resumes`). What a token contributes to
the top-level offsets and to the comment spans is said by the token alone
(`Token.Fits.topLevelFrom_glyphs`, `Token.Fits.commentsFrom_glyphs`), and a scan that resumes after
it contributes what a fresh scan would.

The main statement is `Text.scan_refines_tokens`: the two loops over the scan, the one that lists
top-level offsets and the one that lists comment spans, agree with the one segmentation of the
text.
-/

namespace RoutineScripts

namespace Glyph

/-- Glyphs that are not at top level and start no comment, and that are all in a comment or all
outside. -/
def Covers (inComment : Bool) (glyphs : List Glyph) : Prop :=
  ∀ glyph ∈ glyphs, glyph.isTopLevel = false ∧ glyph.opensComment = false ∧
    glyph.isComment = inComment

/-- Covered glyphs stay covered one list after the other. -/
theorem covers_append {inComment : Bool} {front back : List Glyph}
    (first : Covers inComment front) (second : Covers inComment back) :
    Covers inComment (front ++ back) := by
  intro glyph member
  rcases List.mem_append.mp member with here | later
  · exact first glyph here
  · exact second glyph later

/-- Covered glyphs have no offset at top level. -/
theorem topLevelFrom_of_covers {inComment : Bool} {glyphs : List Glyph}
    (covers : Covers inComment glyphs) (offset : Nat) : topLevelFrom offset glyphs = [] := by
  induction glyphs generalizing offset with
  | nil => rfl
  | cons glyph rest ih =>
      obtain ⟨here, later⟩ := List.forall_mem_cons.mp covers
      rw [topLevelFrom, here.1]
      exact ih later _

/-- Covered glyphs go on with an open comment, or stay outside comments. -/
theorem commentsFrom_append {inComment : Bool} {front : List Glyph} {opened : Option Nat}
    (covers : Covers inComment front) (same : opened.isSome = inComment) (offset : Nat)
    (back : List Glyph) :
    commentsFrom opened offset (front ++ back) =
      commentsFrom opened (offset + (Text.ofGlyphs front).byteLength) back := by
  induction front generalizing offset with
  | nil => rfl
  | cons glyph front ih =>
      obtain ⟨⟨_, opensNothing, inside⟩, later⟩ := List.forall_mem_cons.mp covers
      have shift : offset + (Text.ofGlyphs (glyph :: front)).byteLength =
          offset + glyph.char.utf8Size + (Text.ofGlyphs front).byteLength := by
        simp only [Text.ofGlyphs, List.map_cons, Text.byteLength_cons]
        omega
      have rest := ih later (offset + glyph.char.utf8Size)
      rw [List.cons_append, commentsFrom, opensNothing, inside, shift, ← rest]
      cases opened with
      | none =>
          rw [← same]
          rfl
      | some start =>
          rw [← same]
          rfl

/-- Glyphs of one token that is no plain character: they are covered, but for the first one, which
starts a comment if the token is one. -/
def Encloses (inComment : Bool) (glyphs : List Glyph) : Prop :=
  ∃ first covered, glyphs = first :: covered ∧ first.isTopLevel = false ∧
    first.isComment = inComment ∧ first.opensComment = inComment ∧ Covers inComment covered

theorem Encloses.append {inComment : Bool} {front back : List Glyph}
    (encloses : Encloses inComment front) (covers : Covers inComment back) :
    Encloses inComment (front ++ back) := by
  obtain ⟨first, covered, rfl, topLevel, comment, opens, covers'⟩ := encloses
  exact ⟨first, covered ++ back, rfl, topLevel, comment, opens, covers_append covers' covers⟩

/-- A token that encloses its glyphs has no offset at top level. -/
theorem Encloses.topLevelFrom_eq {inComment : Bool} {glyphs : List Glyph}
    (encloses : Encloses inComment glyphs) (offset : Nat) : topLevelFrom offset glyphs = [] := by
  obtain ⟨first, covered, rfl, topLevel, _, _, covers⟩ := encloses
  rw [topLevelFrom, topLevel]
  exact topLevelFrom_of_covers covers _

/-- A token that encloses its glyphs starts a comment, or none is open after it. -/
theorem Encloses.commentsFrom_append {inComment : Bool} {front : List Glyph}
    (encloses : Encloses inComment front) (offset : Nat) (back : List Glyph) :
    commentsFrom none offset (front ++ back) =
      commentsFrom (if inComment then some offset else none)
        (offset + (Text.ofGlyphs front).byteLength) back := by
  obtain ⟨first, covered, rfl, topLevel, comment, opens, covers⟩ := encloses
  cases inComment with
  | false =>
      have all : Covers false (first :: covered) :=
        List.forall_mem_cons.mpr ⟨⟨topLevel, opens, comment⟩, covers⟩
      exact Glyph.commentsFrom_append all rfl offset back
  | true =>
      have shift : offset + (Text.ofGlyphs (first :: covered)).byteLength =
          offset + first.char.utf8Size + (Text.ofGlyphs covered).byteLength := by
        simp only [Text.ofGlyphs, List.map_cons, Text.byteLength_cons]
        omega
      rw [List.cons_append, commentsFrom, if_pos opens, shift, if_pos rfl,
        ← Glyph.commentsFrom_append covers rfl]
      rfl

end Glyph

namespace ScanState

open Glyph

/-- At the end of a token the scan is in plain text, or in a comment that the next character
ends. -/
def Resumes (state : ScanState) (rest : Text) : Prop :=
  ∀ c ∈ rest.head?, state.IsPlain ∨
    state.mode = .lineComment ∧ state.pending = 0 ∧ isBreak c = true

theorem resumes_nil (state : ScanState) : state.Resumes [] := by
  intro c member
  cases member

/-- A scan in plain text resumes before any text. -/
theorem resumes_of_isPlain {state : ScanState} (plain : state.IsPlain) (rest : Text) :
    state.Resumes rest := fun _ _ => Or.inl plain

/-- In plain text, no glyph belongs to something that started before it. -/
theorem glyph_of_isPlain {state : ScanState} (plain : state.IsPlain) (c : Char) (rest : Text) :
    (state.glyph c rest).before = .normal ∧ (state.glyph c rest).role ≠ .later := by
  obtain ⟨before, mode, pending⟩ := state
  obtain ⟨rfl, rfl⟩ : mode = .normal ∧ pending = 0 := plain
  refine ⟨rfl, ?_⟩
  simp only [glyph]
  split <;> simp

/-- A scan that resumes contributes what a fresh one does: the first glyph may differ in the mode
that it ends, and then it is a line break outside comments. -/
theorem Resumes.scan_eq {state : ScanState} {c : Char} {tail : Text}
    (resumes : state.Resumes (c :: tail)) :
    ∃ first fresh others, state.scan (c :: tail) = first :: others ∧
      Text.scan (c :: tail) = fresh :: others ∧ first.char = fresh.char ∧
      first.isTopLevel = fresh.isTopLevel ∧ first.isComment = fresh.isComment ∧
      first.opensComment = fresh.opensComment ∧
      (fresh.isComment = true → fresh.opensComment = true) := by
  rcases resumes c rfl with plain | ⟨mode, pending, breaks⟩
  · obtain ⟨before, role⟩ := glyph_of_isPlain plain c tail
    refine ⟨_, _, _, state.scan_cons c tail, ?_, rfl, rfl, rfl, rfl, ?_⟩
    · rw [← plain.scan_eq, state.scan_cons]
    · simp [Glyph.isComment, Glyph.opensComment, before, role, Mode.isComment]
  · obtain ⟨before, _, _⟩ := state
    cases mode
    cases pending
    have opens : c ∉ ['-', '/', '$', '\'', '"'] := by
      rcases eq_of_isBreak breaks with rfl | rfl <;> decide
    have ends : Mode.lineComment.advance c tail = ⟨.normal, 0⟩ :=
      if_pos (eq_of_isBreak breaks)
    have plain : IsPlain ⟨.lineComment, .normal, 0⟩ := ⟨rfl, rfl⟩
    refine ⟨⟨c, .single, .lineComment, .normal⟩, ⟨c, .single, .normal, .normal⟩, tail.scan, ?_,
      Text.scan_cons_of_plain opens tail, rfl, rfl, rfl, rfl, nofun⟩
    rw [scan_cons]
    simp only [glyph, next, ends]
    exact congrArg _ (plain.scan_eq tail)

/-- After a token, the offsets at top level are those of a scan of the rest. -/
theorem Resumes.topLevelFrom_eq {state : ScanState} {rest : Text} (resumes : state.Resumes rest)
    (offset : Nat) : topLevelFrom offset (state.scan rest) = topLevelFrom offset rest.scan := by
  cases rest with
  | nil => rw [scan_nil]; rfl
  | cons c tail =>
      obtain ⟨first, fresh, others, whole, wholeFresh, char, topLevel, _⟩ := resumes.scan_eq
      rw [whole, wholeFresh, topLevelFrom, topLevelFrom, char, topLevel]

/-- An open comment ends where a scan resumes. -/
theorem Resumes.commentsFrom_eq {state : ScanState} {rest : Text} (resumes : state.Resumes rest)
    (opened : Option Nat) (offset : Nat) :
    commentsFrom opened offset (state.scan rest) =
      (opened.map fun start => (start, offset)).toList ++ commentsFrom none offset rest.scan := by
  cases rest with
  | nil =>
      have empty : Text.scan [] = [] := rfl
      simp [scan_nil, empty, commentsFrom]
  | cons c tail =>
      obtain ⟨first, fresh, others, whole, wholeFresh, char, _, comment, opens, starts⟩ :=
        resumes.scan_eq
      rw [whole, wholeFresh, commentsFrom, commentsFrom, char, comment, opens]
      by_cases opening : fresh.opensComment = true
      · simp [opening]
      · have outside : fresh.isComment = false := by
          simpa using fun inside => opening (starts inside)
        simp [opening, outside]

/-! ### The glyphs of a token -/

/-- The glyphs of a delimiter that is being passed keep the modes around it. -/
theorem glyphs_of_pending {before mode : Mode} {pending : Nat} {front : Text} (back : Text)
    (within : front.length ≤ pending) :
    ScanState.glyphs ⟨before, mode, pending⟩ front back =
      front.map fun c => ⟨c, .later, before, mode⟩ := by
  induction front generalizing pending with
  | nil => rfl
  | cons c front ih =>
      cases pending with
      | zero => simp at within
      | succ pending =>
          simp only [glyphs, glyph, next, List.map_cons]
          rw [ih (by simpa using within)]

/-- Several characters taken together: the first leads, and the others follow. -/
theorem glyphs_of_advance (before : Mode) {mode next : Mode} {c : Char} {front back : Text}
    (step : mode.advance c (front ++ back) = ⟨next, front.length + 1⟩) :
    ScanState.glyphs ⟨before, mode, 0⟩ (c :: front) back =
      ⟨c, .lead (front.length + 1), mode, next⟩ ::
        front.map fun d => ⟨d, .later, mode, next⟩ := by
  simp only [glyphs, glyph, ScanState.next, step]
  rw [glyphs_of_pending back (by simp)]
  simp

/-- The later glyphs of a delimiter are covered. -/
theorem covers_later {before mode : Mode} (front : Text)
    (inComment : (mode.isComment || before.isComment) = mode.isComment) :
    Covers mode.isComment (front.map fun c => ⟨c, .later, before, mode⟩) := by
  intro glyph member
  obtain ⟨c, _, rfl⟩ := List.mem_map.mp member
  refine ⟨rfl, by simp [Glyph.opensComment], ?_⟩
  simpa [Glyph.isComment] using inComment

/-- Glyphs inside a token that is no plain text are covered. -/
theorem covers_of_inside {mode : Mode} {glyphs : List Glyph} (quoted : mode ≠ .normal)
    (inside : ∀ glyph ∈ glyphs, glyph.before = mode ∧ glyph.after = mode) :
    Covers mode.isComment glyphs := by
  intro glyph member
  obtain ⟨before, after⟩ := inside glyph member
  refine ⟨by simp [Glyph.isTopLevel, after, quoted], by simp [Glyph.opensComment, before, after],
    ?_⟩
  cases comment : mode.isComment <;> simp [Glyph.isComment, before, after, comment]

/-- Content that no character of ends its mode is read character by character. -/
theorem inside_of_stays {mode : Mode} {content back : Text}
    (stays : ∀ front c tail, content = front ++ c :: tail →
      mode.advance c (tail ++ back) = ⟨mode, 0⟩) (before : Mode) :
    (∃ last, ScanState.after ⟨before, mode, 0⟩ content back = ⟨last, mode, 0⟩) ∧
      ∀ glyph ∈ ScanState.glyphs ⟨before, mode, 0⟩ content back,
        glyph.before = mode ∧ glyph.after = mode := by
  induction content generalizing before with
  | nil => exact ⟨⟨before, rfl⟩, by simp [glyphs]⟩
  | cons c content ih =>
      have step := stays [] c content rfl
      obtain ⟨reached, inside⟩ := ih
        (fun front d tail split => stays (c :: front) d tail (by rw [split]; rfl)) mode
      simp only [after, glyphs, next, glyph, step]
      exact ⟨reached, List.forall_mem_cons.mpr ⟨⟨rfl, rfl⟩, inside⟩⟩

/-- Doubled quotes do not end a literal. -/
theorem inside_of_quotesDoubled {content : Text} (doubled : QuotesDoubled content) (back : Text)
    (before : Mode) :
    (∃ last, ScanState.after ⟨before, .singleQuoted, 0⟩ content back =
        ⟨last, .singleQuoted, 0⟩) ∧
      ∀ glyph ∈ ScanState.glyphs ⟨before, .singleQuoted, 0⟩ content back,
        glyph.before = .singleQuoted ∧ glyph.after = .singleQuoted := by
  induction doubled generalizing before with
  | nil => exact ⟨⟨before, rfl⟩, by simp [glyphs]⟩
  | @char c rest differs _ ih =>
      have step : Mode.singleQuoted.advance c (rest ++ back) = ⟨.singleQuoted, 0⟩ :=
        if_neg differs
      obtain ⟨reached, inside⟩ := ih .singleQuoted
      simp only [after, glyphs, next, glyph, step]
      exact ⟨reached, List.forall_mem_cons.mpr ⟨⟨rfl, rfl⟩, inside⟩⟩
  | @pair rest _ ih =>
      have step : Mode.singleQuoted.advance '\'' ('\'' :: (rest ++ back)) = ⟨.singleQuoted, 2⟩ :=
        rfl
      obtain ⟨reached, inside⟩ := ih .singleQuoted
      simp only [after, glyphs, next, glyph, List.cons_append, step]
      exact ⟨reached, List.forall_mem_cons.mpr ⟨⟨rfl, rfl⟩,
        List.forall_mem_cons.mpr ⟨⟨rfl, rfl⟩, inside⟩⟩⟩

/-- The opener of a token leads into its mode. -/
theorem encloses_opener {mode : Mode} {c : Char} {front back : Text} {taken : Nat}
    (quoted : mode ≠ .normal) (step : Mode.normal.advance c (front ++ back) = ⟨mode, taken⟩)
    (size : taken = front.length + 1 ∨ taken = 0 ∧ front = []) :
    start.after (c :: front) back = ⟨.normal, mode, 0⟩ ∧
      Encloses mode.isComment (start.glyphs (c :: front) back) := by
  rcases size with rfl | ⟨rfl, rfl⟩
  · refine ⟨(after_of_advance .normal step).1, _, _, glyphs_of_advance .normal step, ?_⟩
    exact ⟨rfl, by simp [Glyph.isComment, Mode.isComment],
      by simp [Glyph.opensComment, Mode.isComment],
      covers_later front (by simp [Mode.isComment])⟩
  · rw [List.nil_append] at step
    refine ⟨by simp [after, next, start, step], ⟨c, .single, .normal, mode⟩, [],
      by simp [glyphs, glyph, start, step], by simp [Glyph.isTopLevel, quoted],
      by simp [Glyph.isComment], by simp [Glyph.opensComment, Mode.isComment], ?_⟩
    intro glyph member
    cases member

/-- The opener and the content of a token. -/
theorem encloses_content {mode : Mode} {opener content back : Text} (quoted : mode ≠ .normal)
    (opened : start.after opener (content ++ back) = ⟨.normal, mode, 0⟩ ∧
      Encloses mode.isComment (start.glyphs opener (content ++ back)))
    (read : (∃ last, ScanState.after ⟨.normal, mode, 0⟩ content back = ⟨last, mode, 0⟩) ∧
      ∀ glyph ∈ ScanState.glyphs ⟨.normal, mode, 0⟩ content back,
        glyph.before = mode ∧ glyph.after = mode) :
    (∃ last, start.after (opener ++ content) back = ⟨last, mode, 0⟩) ∧
      Encloses mode.isComment (start.glyphs (opener ++ content) back) := by
  obtain ⟨reached, encloses⟩ := opened
  rw [after_append, glyphs_append, reached]
  exact ⟨read.1, encloses.append (covers_of_inside quoted read.2)⟩

/-- A closing delimiter that is taken together belongs to its token. -/
theorem covers_closer {mode : Mode} {c : Char} {front back : Text} (last : Mode)
    (step : mode.advance c (front ++ back) = ⟨.normal, front.length + 1⟩) :
    Covers mode.isComment (ScanState.glyphs ⟨last, mode, 0⟩ (c :: front) back) := by
  rw [glyphs_of_advance last step]
  intro glyph member
  rcases List.mem_cons.mp member with rfl | later
  · exact ⟨rfl, rfl, by simp [Glyph.isComment, Mode.isComment]⟩
  · obtain ⟨d, _, rfl⟩ := List.mem_map.mp later
    exact ⟨rfl, rfl, by simp [Glyph.isComment, Mode.isComment]⟩

end ScanState

namespace Token

open Glyph ScanState

/-- The byte offsets at top level that a token contributes when it starts at `offset`: all bytes of
a plain character, and the quote that closes a literal or a quoted name. -/
def topLevel (offset : Nat) : Token → List Nat
  | plain c => List.range' offset c.utf8Size
  | literal content true => [offset + (Text.byteLength ('\'' :: content))]
  | bracketed .name content true => [offset + (Text.byteLength ('"' :: content))]
  | _ => []

/-- What a scan makes of a token before `rest`. -/
structure Reads (token : Token) (rest : Text) : Prop where
  topLevel : ∀ offset, topLevelFrom offset (Text.glyphs token.written rest) = token.topLevel offset
  comments : ∀ offset others,
    commentsFrom none offset (Text.glyphs token.written rest ++ others) =
      commentsFrom (if token.isComment then some offset else none)
        (offset + token.written.byteLength) others
  resumes : (start.after token.written rest).Resumes rest

/-- A token that encloses its glyphs is read as it should. -/
theorem reads_of_encloses {token : Token} {rest : Text}
    (encloses : Encloses token.isComment (Text.glyphs token.written rest))
    (silent : ∀ offset, token.topLevel offset = [])
    (resumes : (start.after token.written rest).Resumes rest) : token.Reads rest := by
  refine ⟨fun offset => ?_, fun offset others => ?_, resumes⟩
  · rw [encloses.topLevelFrom_eq, silent]
  · have written : Text.ofGlyphs (Text.glyphs token.written rest) = token.written :=
      ofGlyphs_glyphs _ _ _
    rw [encloses.commentsFrom_append, written]

/-- A quote character that closes a token is a glyph of its own. -/
theorem glyphs_of_quote {mode last : Mode} {front rest : Text} {quote : Char}
    (reached : start.after front (quote :: rest) = ⟨last, mode, 0⟩)
    (step : mode.advance quote rest = ⟨.normal, 0⟩) :
    Text.glyphs (front ++ [quote]) rest =
      start.glyphs front (quote :: rest) ++ [⟨quote, .single, mode, .normal⟩] := by
  rw [Text.glyphs, glyphs_append, List.singleton_append, reached]
  simp [ScanState.glyphs, glyph, step]

/-- A token that a single quote character closes. -/
theorem reads_of_quote {token : Token} {mode last : Mode} {front rest : Text} {quote : Char}
    (written : token.written = front ++ [quote]) (outside : mode.isComment = false)
    (noComment : token.isComment = false)
    (reached : start.after front (quote :: rest) = ⟨last, mode, 0⟩)
    (encloses : Encloses mode.isComment (start.glyphs front (quote :: rest)))
    (step : mode.advance quote rest = ⟨.normal, 0⟩) (small : quote.utf8Size = 1)
    (shows : ∀ offset, token.topLevel offset = [offset + front.byteLength]) :
    token.Reads rest := by
  have glyphs := written ▸ glyphs_of_quote reached step
  refine ⟨fun offset => ?_, fun offset others => ?_, ?_⟩
  · rw [glyphs, topLevelFrom_append, encloses.topLevelFrom_eq, ofGlyphs_glyphs, shows]
    simp [topLevelFrom, Glyph.isTopLevel, small]
  · rw [glyphs, List.append_assoc, encloses.commentsFrom_append, ofGlyphs_glyphs, outside,
      noComment, written, Text.byteLength_append, ← Nat.add_assoc]
    simp [commentsFrom, Glyph.opensComment, Glyph.isComment, Mode.isComment]
  · rw [written, after_append, List.singleton_append, reached]
    simp only [ScanState.after, next, List.nil_append, step]
    exact resumes_of_isPlain ⟨rfl, rfl⟩ rest

/-- A plain character has one glyph at top level. -/
theorem glyphs_plain {c : Char} {rest : Text} (fits : (plain c).Fits rest) :
    Text.glyphs [c] rest = [⟨c, .single, .normal, .normal⟩] := by
  simp [Text.glyphs, ScanState.glyphs, glyph, start, advance_plain fits]

/-- A plain character is read at top level. -/
theorem reads_plain {c : Char} {rest : Text} (fits : (plain c).Fits rest) :
    (plain c).Reads rest := by
  have step := advance_plain fits
  have glyphs := glyphs_plain fits
  refine ⟨fun offset => ?_, fun offset others => ?_, ?_⟩
  · simp [written, glyphs, topLevelFrom, Glyph.isTopLevel, topLevel]
  · simp [written, glyphs, commentsFrom, Glyph.opensComment, Glyph.isComment, Mode.isComment,
      isComment]
  · simp only [written, ScanState.after, next, start, List.nil_append, step]
    exact resumes_of_isPlain ⟨rfl, rfl⟩ rest

/-- A line comment leaves the scan in its mode. -/
theorem encloses_lineComment {content rest : Text} (fits : (lineComment content).Fits rest) :
    (∃ last, start.after (lineComment content).written rest = ⟨last, .lineComment, 0⟩) ∧
      Encloses true (Text.glyphs (lineComment content).written rest) := by
  have stays : ∀ front c tail, content = front ++ c :: tail →
      Mode.lineComment.advance c (tail ++ rest) = ⟨.lineComment, 0⟩ := by
    rintro front c tail rfl
    have goesOn : isBreak c = false := fits.1 c (by simp)
    refine if_neg fun breaks => ?_
    rcases breaks with rfl | rfl <;> cases goesOn
  have step : Mode.normal.advance '-' (['-'] ++ (content ++ rest)) = ⟨.lineComment, 2⟩ := rfl
  exact encloses_content (by simp) (encloses_opener (by simp) step (Or.inl rfl))
    (inside_of_stays stays .normal)

/-- A line comment is read as a comment. -/
theorem reads_lineComment {content rest : Text} (fits : (lineComment content).Fits rest) :
    (lineComment content).Reads rest := by
  obtain ⟨⟨last, reached⟩, encloses⟩ := encloses_lineComment fits
  refine reads_of_encloses encloses (fun _ => rfl) ?_
  intro c first
  refine Or.inr ?_
  rw [reached]
  exact ⟨rfl, rfl, fits.2 c first⟩

/-- The quote that opens a literal, and its content. -/
theorem encloses_literal {content : Text} (doubled : QuotesDoubled content) (back : Text) :
    (∃ last, start.after (['\''] ++ content) back = ⟨last, .singleQuoted, 0⟩) ∧
      Encloses false (start.glyphs (['\''] ++ content) back) := by
  have opens : Mode.normal.advance '\'' ([] ++ (content ++ back)) = ⟨.singleQuoted, 0⟩ := rfl
  exact encloses_content (by simp) (encloses_opener (by simp) opens (Or.inr ⟨rfl, rfl⟩))
    (inside_of_quotesDoubled doubled back .normal)

/-- A literal is read as a literal. -/
theorem reads_literal {content rest : Text} {closed : Bool}
    (fits : (literal content closed).Fits rest) : (literal content closed).Reads rest := by
  cases closed with
  | true =>
      obtain ⟨⟨last, reached⟩, encloses⟩ := encloses_literal fits.1 ('\'' :: rest)
      have step : Mode.singleQuoted.advance '\'' rest = ⟨.normal, 0⟩ := by
        simp [Mode.advance, fits.2]
      exact reads_of_quote rfl rfl rfl reached encloses step rfl fun _ => rfl
  | false =>
      obtain ⟨doubled, rfl⟩ := fits
      obtain ⟨_, encloses⟩ := encloses_literal doubled []
      refine reads_of_encloses ?_ (fun _ => rfl) (resumes_nil _)
      have whole : (literal content false).written = ['\''] ++ content := by simp [written]
      rw [whole]
      exact encloses

/-- The closing delimiter of a bracket is looked for at every character of the content. -/
theorem not_closer_of_fits {bracket : Bracket} {content rest : Text} {closed : Bool}
    (fits : (bracketed bracket content closed).Fits rest) {front tail : Text} {c : Char}
    (split : content = front ++ c :: tail) :
    ¬ bracket.closer <+: c :: (tail ++ ((if closed then bracket.closer else []) ++ rest)) := by
  rintro ⟨more, shape⟩
  cases closed with
  | true =>
      have later := fits.2.append rest front more (by rw [split]; simpa using shape.symm)
      rw [split, List.length_append, List.length_cons] at later
      omega
  | false =>
      obtain ⟨_, nowhere, rfl⟩ := fits
      exact nowhere ⟨front, more, by rw [split, List.append_assoc, shape]; simp⟩

/-- Inside brackets the scan goes on until the closer. -/
theorem advance_content {bracket : Bracket} {content : Text} {closed : Bool} {c : Char}
    {rest : Text} (goesOn : ¬ bracket.closer <+: c :: rest) :
    (bracketed bracket content closed).mode.advance c rest =
      ⟨(bracketed bracket content closed).mode, 0⟩ := by
  cases bracket with
  | block =>
      refine if_neg fun ⟨star, slash⟩ => goesOn ?_
      obtain ⟨others, rfl⟩ := List.head?_eq_some_iff.mp slash
      exact ⟨others, by rw [star]; rfl⟩
  | dollar tag => exact if_neg (by rwa [List.isPrefixOf_iff_prefix])
  | name =>
      refine if_neg fun quote => goesOn ?_
      exact ⟨rest, by rw [quote]; rfl⟩

/-- Brackets enclose their opener, their content and their closer. -/
theorem encloses_bracketed {bracket : Bracket} {content rest : Text} {closed : Bool}
    (fits : (bracketed bracket content closed).Fits rest) :
    let ending := if closed then bracket.closer else []
    (∃ last, start.after (bracket.opener ++ content) (ending ++ rest) =
        ⟨last, (bracketed bracket content closed).mode, 0⟩) ∧
      Encloses (bracketed bracket content closed).mode.isComment
        (start.glyphs (bracket.opener ++ content) (ending ++ rest)) := by
  intro ending
  have quoted : (bracketed bracket content closed).mode ≠ .normal := by
    cases bracket <;> simp [mode]
  have stays : ∀ front c tail, content = front ++ c :: tail →
      (bracketed bracket content closed).mode.advance c (tail ++ (ending ++ rest)) =
        ⟨(bracketed bracket content closed).mode, 0⟩ :=
    fun front c tail split => advance_content (not_closer_of_fits fits split)
  refine encloses_content quoted ?_ (inside_of_stays stays .normal)
  cases bracket with
  | block =>
      have step : Mode.normal.advance '/' (['*'] ++ (content ++ (ending ++ rest))) =
          ⟨.blockComment, 2⟩ := rfl
      exact encloses_opener quoted step (Or.inl rfl)
  | name =>
      have step : Mode.normal.advance '"' ([] ++ (content ++ (ending ++ rest))) =
          ⟨.doubleQuoted, 0⟩ := rfl
      exact encloses_opener quoted step (Or.inr ⟨rfl, rfl⟩)
  | dollar tag =>
      obtain ⟨others, rfl, step⟩ := advance_dollar fits.proper
      exact encloses_opener quoted (step _) (Or.inl rfl)

/-- The delimiters of block comments and dollar-quoted spans are taken together. -/
theorem advance_closer {bracket : Bracket} (proper : bracket.Proper) (together : bracket ≠ .name)
    (content : Text) (closed : Bool) (rest : Text) :
    ∃ c front, bracket.closer = c :: front ∧
      (bracketed bracket content closed).mode.advance c (front ++ rest) =
        ⟨.normal, front.length + 1⟩ := by
  cases bracket with
  | block => exact ⟨'*', ['/'], rfl, rfl⟩
  | name => exact absurd rfl together
  | dollar tag =>
      obtain ⟨name, rfl, _⟩ := proper
      refine ⟨'$', name ++ ['$'], rfl, if_pos ?_⟩
      rw [List.isPrefixOf_iff_prefix]
      exact List.prefix_append _ rest

/-- The mode inside brackets is that of a comment exactly when the brackets are a comment. -/
theorem isComment_mode (bracket : Bracket) (content : Text) (closed : Bool) :
    (bracketed bracket content closed).mode.isComment =
      (bracketed bracket content closed).isComment := by
  cases bracket <;> rfl

/-- A closing delimiter that is taken together leaves the scan in plain text. -/
theorem encloses_closed {bracket : Bracket} {content rest : Text}
    (fits : (bracketed bracket content true).Fits rest) (together : bracket ≠ .name) :
    (∃ last, start.after (bracketed bracket content true).written rest = ⟨last, .normal, 0⟩) ∧
      Encloses (bracketed bracket content true).isComment
        (Text.glyphs (bracketed bracket content true).written rest) := by
  obtain ⟨⟨last, reached⟩, encloses⟩ := encloses_bracketed fits
  obtain ⟨c, front, shape, step⟩ := advance_closer fits.proper together content true rest
  have whole : (bracketed bracket content true).written =
      bracket.opener ++ content ++ (c :: front) := by
    rw [← shape]
    rfl
  simp only [if_true, shape] at reached encloses
  rw [whole, after_append, reached, Text.glyphs, glyphs_append, reached, ← isComment_mode]
  exact ⟨⟨_, (after_of_advance last step).1⟩, encloses.append (covers_closer last step)⟩

/-- A delimiter that is never closed reaches to the end of the text. -/
theorem encloses_open {bracket : Bracket} {content rest : Text}
    (fits : (bracketed bracket content false).Fits rest) :
    rest = [] ∧ Encloses (bracketed bracket content false).isComment
      (Text.glyphs (bracketed bracket content false).written rest) := by
  obtain ⟨_, encloses⟩ := encloses_bracketed fits
  obtain ⟨_, _, rfl⟩ := fits
  exact ⟨rfl, by simpa [written, isComment_mode, Text.glyphs] using encloses⟩

/-- A bracketed token is read as a comment or a literal. -/
theorem reads_bracketed {bracket : Bracket} {content rest : Text} {closed : Bool}
    (fits : (bracketed bracket content closed).Fits rest) :
    (bracketed bracket content closed).Reads rest := by
  cases closed with
  | false =>
      obtain ⟨rfl, encloses⟩ := encloses_open fits
      exact reads_of_encloses encloses (fun _ => by cases bracket <;> rfl) (resumes_nil _)
  | true =>
      by_cases quote : bracket = .name
      · subst quote
        obtain ⟨⟨last, reached⟩, encloses⟩ := encloses_bracketed fits
        have step : Mode.doubleQuoted.advance '"' rest = ⟨.normal, 0⟩ := rfl
        exact reads_of_quote rfl rfl rfl reached encloses step rfl fun _ => rfl
      · obtain ⟨⟨last, reached⟩, encloses⟩ := encloses_closed fits quote
        refine reads_of_encloses encloses (fun _ => ?_) ?_
        · cases bracket with
          | name => exact absurd rfl quote
          | _ => rfl
        · rw [reached]
          exact resumes_of_isPlain ⟨rfl, rfl⟩ rest

/-- **A scan reads the tokens of the grammar.** -/
theorem Fits.reads {token : Token} {rest : Text} (fits : token.Fits rest) : token.Reads rest := by
  cases token with
  | plain c => exact reads_plain fits
  | lineComment content => exact reads_lineComment fits
  | bracketed bracket content closed => exact reads_bracketed fits
  | literal content closed => exact reads_literal fits

/-- Tokens with the byte offsets at which they start. -/
def placed : Nat → List Token → List (Nat × Token)
  | _, [] => []
  | offset, token :: tokens => (offset, token) :: placed (offset + token.written.byteLength) tokens

/-- The byte offsets at top level in a sequence of tokens. -/
def topLevelPositions (tokens : List Token) : List Nat :=
  (placed 0 tokens).flatMap fun (offset, token) => token.topLevel offset

/-- The byte spans of the comments in a sequence of tokens. -/
def commentSpans (tokens : List Token) : List (Nat × Nat) :=
  ((placed 0 tokens).filter fun (_, token) => token.isComment).map
    fun (offset, token) => (offset, offset + token.written.byteLength)

/-- The offsets at top level of a scan are those of the tokens. -/
theorem topLevelFrom_scan {tokens : List Token} {text : Text} (segments : Segments tokens text)
    (offset : Nat) :
    topLevelFrom offset text.scan =
      (placed offset tokens).flatMap fun (place, token) => token.topLevel place := by
  induction tokens generalizing text offset with
  | nil =>
      obtain rfl : text = [] := segments
      rfl
  | cons token tokens ih =>
      obtain ⟨rest, rfl, fits, others⟩ := segments
      have reads := fits.reads
      have cut : (token.written ++ rest).scan =
          Text.glyphs token.written rest ++ (start.after token.written rest).scan rest :=
        start.scan_append token.written rest
      rw [cut, topLevelFrom_append, reads.topLevel, reads.resumes.topLevelFrom_eq, ih others,
        Text.glyphs, ofGlyphs_glyphs, placed, List.flatMap_cons]

/-- The comments of a scan are the spans of the comment tokens. -/
theorem commentsFrom_scan {tokens : List Token} {text : Text} (segments : Segments tokens text)
    (offset : Nat) :
    commentsFrom none offset text.scan =
      ((placed offset tokens).filter fun (_, token) => token.isComment).map
        fun (place, token) => (place, place + token.written.byteLength) := by
  induction tokens generalizing text offset with
  | nil =>
      obtain rfl : text = [] := segments
      rfl
  | cons token tokens ih =>
      obtain ⟨rest, rfl, fits, others⟩ := segments
      have reads := fits.reads
      have cut : (token.written ++ rest).scan =
          Text.glyphs token.written rest ++ (start.after token.written rest).scan rest :=
        start.scan_append token.written rest
      rw [cut, reads.comments, reads.resumes.commentsFrom_eq, ih others, placed, List.filter_cons]
      cases comment : token.isComment <;> simp [comment]

end Token

/-- **The scanner refines the lexical grammar.** Every text is cut into tokens in exactly one way.
Its comment spans are the spans of the comment tokens in order, and its top-level offsets are, in
increasing order, the bytes of the plain characters together with the quotes that close literals and
quoted names. -/
theorem Text.scan_refines_tokens (text : Text) :
    ∃ tokens, (Token.Segments tokens text ∧ ∀ other, Token.Segments other text → other = tokens) ∧
      text.commentSpans = Token.commentSpans tokens ∧
      text.topLevelPositions 0 = Token.topLevelPositions tokens ∧
      (text.topLevelPositions 0).Pairwise (· < ·) ∧
      ∀ offset, text.isTopLevelAt offset = true ↔ offset ∈ Token.topLevelPositions tokens := by
  obtain ⟨tokens, segments⟩ := Token.exists_segments text
  have positions : text.topLevelPositions 0 = Token.topLevelPositions tokens := by
    rw [Token.topLevelPositions, ← Token.topLevelFrom_scan segments]
    exact topLevelPositions_append [] text
  refine ⟨tokens, ⟨segments, fun other also => Token.segments_unique also segments⟩,
    Token.commentsFrom_scan segments 0, positions, sorted_topLevelPositions text 0, ?_⟩
  intro offset
  rw [isTopLevelAt_iff, positions]

end RoutineScripts
