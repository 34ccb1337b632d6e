import RoutineScripts.Proofs.Lexical.Normalization
import RoutineScripts.Proofs.Lexical.Refinement

/-!
# Comments with other words

What a comment holds has no part in how the rest of a text is scanned. The glyphs of a comment are
hidden (`Glyph.Hidden`): none is at top level. When a comment token is reworded (`Token.Rewords`),
the glyphs before it and after it stay the same (`Token.Rewords.alike`), and a search at top level
that goes past the comment finds the same place (`Glyph.Alike.splitTopLevel?`).

A comment token among the tokens of a text starts where the scan is in plain text
(`Token.settles_of_segments`).
-/

namespace RoutineScripts

namespace Text

/-- A front of a text that is no longer in bytes is a front of the longer front. -/
theorem exists_append_of_byteLength_le {first second firstRest secondRest : Text}
    (same : first ++ firstRest = second ++ secondRest)
    (shorter : byteLength first ≤ byteLength second) :
    ∃ more, second = first ++ more ∧ firstRest = more ++ secondRest := by
  rcases List.append_eq_append_iff.mp same with ⟨more, rfl, rfl⟩ | ⟨more, rfl, rfl⟩
  · exact ⟨more, rfl, rfl⟩
  · have none : byteLength more = 0 := by
      rw [byteLength_append] at shorter
      omega
    cases more with
    | nil => exact ⟨[], by simp, by simp⟩
    | cons c more =>
        have positive := c.utf8Size_pos
        rw [byteLength_cons] at none
        omega

end Text

namespace ScanState

theorem IsPlain.after_cons {state : ScanState} (plain : state.IsPlain) (c : Char)
    (front back : Text) : state.after (c :: front) back = start.after (c :: front) back := by
  obtain ⟨before, mode, pending⟩ := state
  obtain ⟨rfl, rfl⟩ : mode = .normal ∧ pending = 0 := plain
  rfl

end ScanState

namespace Token

open ScanState

variable {tokens front back : List Token} {token other : Token} {text rest : Text}

/-- The text that tokens make up. -/
def textOf (tokens : List Token) : Text :=
  tokens.flatMap written

/-- Two lists of tokens are written one after the other. -/
theorem textOf_append (front back : List Token) :
    textOf (front ++ back) = textOf front ++ textOf back :=
  List.flatMap_append

theorem textOf_cons (token : Token) (back : List Token) :
    textOf (token :: back) = token.written ++ textOf back :=
  List.flatMap_cons

/-- A text is what its tokens spell. -/
theorem Segments.eq_textOf (segments : Segments tokens text) : text = textOf tokens := by
  induction tokens generalizing text with
  | nil => exact segments
  | cons token tokens ih =>
      obtain ⟨rest, rfl, _, others⟩ := segments
      rw [ih others, textOf_cons]

/-- Where a scan resumes in front of a token, it resumes after it. -/
theorem resumes_after {state : ScanState} (resumes : state.Resumes (token.written ++ rest))
    (fits : token.Fits rest) : (state.after token.written rest).Resumes rest := by
  obtain ⟨c, tail, shape⟩ := List.exists_cons_of_ne_nil (written_ne_nil fits)
  rcases resumes c (by rw [shape]; rfl) with plain | ⟨mode, pending, breaks⟩
  · rw [shape, plain.after_cons, ← shape]
    exact fits.reads.resumes
  · -- The line break that ends a comment is a token of its own.
    have opens : c ∉ ['-', '/', '$', '\'', '"'] := by
      rcases eq_of_isBreak breaks with rfl | rfl <;> decide
    have same : token = plain c :=
      eq_of_fits fits (fits_plain opens (tail ++ rest)) (by rw [shape]; rfl)
    obtain ⟨before, _, _⟩ := state
    cases mode
    cases pending
    have ends : Mode.lineComment.advance c rest = ⟨.normal, 0⟩ := if_pos (eq_of_isBreak breaks)
    rw [same]
    refine resumes_of_isPlain ?_ rest
    simp [written, ScanState.after, next, ends, IsPlain]

/-- A scan resumes at the end of each token. -/
theorem resumes_textOf {state : ScanState} (segments : Segments (front ++ back) text)
    (resumes : state.Resumes text) :
    (state.after (textOf front) (textOf back)).Resumes (textOf back) := by
  induction front generalizing state text with
  | nil => rwa [segments.eq_textOf] at resumes
  | cons token front ih =>
      obtain ⟨rest, rfl, fits, others⟩ := segments
      have later := ih others (resumes_after resumes fits)
      rw [others.eq_textOf, List.append_eq, textOf_append] at later
      rwa [textOf_cons, after_append]

/-- A token of a text fits before the tokens that follow it. -/
theorem Segments.fits (segments : Segments (front ++ token :: back) text) :
    token.Fits (textOf back) := by
  induction front generalizing text with
  | nil =>
      obtain ⟨rest, _, fits, others⟩ := segments
      rwa [others.eq_textOf] at fits
  | cons first front ih =>
      obtain ⟨rest, _, _, others⟩ := segments
      exact ih others

end Token

namespace Glyph

/-- The glyphs of a comment: none is at top level. -/
def Hidden (glyphs : List Glyph) : Prop :=
  ∀ glyph ∈ glyphs, glyph.isTopLevel = false ∧ glyph.isComment = true

/-- The glyphs of a comment are hidden. -/
theorem Encloses.hidden {glyphs : List Glyph} (encloses : Encloses true glyphs) :
    Hidden glyphs := by
  obtain ⟨first, covered, rfl, topLevel, comment, _, covers⟩ := encloses
  refine List.forall_mem_cons.mpr ⟨⟨topLevel, comment⟩, fun glyph member => ?_⟩
  exact ⟨(covers glyph member).1, (covers glyph member).2.2⟩

/-- Hidden glyphs are no character at top level. -/
theorem Hidden.isTopLevelChar_eq {glyphs : List Glyph} (hidden : Hidden glyphs) (target : Char) :
    ∀ glyph ∈ glyphs, glyph.isTopLevelChar target = false := by
  intro glyph member
  rw [isTopLevelChar, (hidden glyph member).1, Bool.false_and]

/-- The scans of two texts `front ++ comment ++ rest` and `front ++ other ++ rest` that differ in a
comment. The comments start with the same two signs. If the first one ends in another character
than the second, then a line break follows. -/
structure Alike (front comment other rest : Text) (lead hidden hiddenToo tail : List Glyph) :
    Prop where
  scan : Text.scan (front ++ (comment ++ rest)) = lead ++ (hidden ++ tail)
  scanToo : Text.scan (front ++ (other ++ rest)) = lead ++ (hiddenToo ++ tail)
  leadText : Text.ofGlyphs lead = front
  hiddenText : Text.ofGlyphs hidden = comment
  hiddenTooText : Text.ofGlyphs hiddenToo = other
  tailText : Text.ofGlyphs tail = rest
  isHidden : Hidden hidden
  isHiddenToo : Hidden hiddenToo
  signs : ∃ y z inner innerToo, (y = '-' ∨ y = '/') ∧ comment = y :: z :: inner ∧
    other = y :: z :: innerToo
  joins : comment.getLast? = other.getLast? ∨ ∀ c ∈ rest.head?, isBreak c = true

namespace Alike

variable {front comment other rest : Text} {lead hidden hiddenToo tail : List Glyph}

theorem symm (alike : Alike front comment other rest lead hidden hiddenToo tail) :
    Alike front other comment rest lead hiddenToo hidden tail where
  scan := alike.scanToo
  scanToo := alike.scan
  leadText := alike.leadText
  hiddenText := alike.hiddenTooText
  hiddenTooText := alike.hiddenText
  tailText := alike.tailText
  isHidden := alike.isHiddenToo
  isHiddenToo := alike.isHidden
  signs := by
    obtain ⟨y, z, inner, innerToo, sign, shape, shapeToo⟩ := alike.signs
    exact ⟨y, z, innerToo, inner, sign, shapeToo, shape⟩
  joins := alike.joins.imp_left Eq.symm

/-- A search at top level passes over a comment. -/
theorem search_eq (alike : Alike front comment other rest lead hidden hiddenToo tail)
    {target : Char} (none : ∀ glyph ∈ lead, glyph.isTopLevelChar target = false) :
    Text.splitTopLevel? target (front ++ (comment ++ rest)) =
      (search (Text.topLevelTest target) Option.none tail).map
        fun (passed, after) => (front ++ (comment ++ Text.ofGlyphs passed), after) := by
  have misses : Misses (Text.topLevelTest target) Option.none lead (hidden ++ tail) :=
    Text.misses_topLevelTest_iff.mpr none
  have missesToo : Misses (Text.topLevelTest target) (lead.getLast?.or Option.none) hidden tail :=
    Text.misses_topLevelTest_iff.mpr (alike.isHidden.isTopLevelChar_eq target)
  have ignores : ∀ first second glyphs,
      Text.topLevelTest target first glyphs = Text.topLevelTest target second glyphs :=
    fun _ _ glyphs => by cases glyphs <;> rfl
  rw [Text.splitTopLevel?_eq, alike.scan, search_append misses, search_append missesToo,
    search_previous ignores _ Option.none]
  simp only [Option.map_map, Function.comp_def, Text.ofGlyphs_append, alike.leadText,
    alike.hiddenText]

/-- **Comments hide top-level characters.** A character at top level that is found past a comment
is found past a reworded comment. -/
theorem splitTopLevel?_eq_some (alike : Alike front comment other rest lead hidden hiddenToo tail)
    {target : Char} {before after : Text}
    (found : Text.splitTopLevel? target (front ++ (comment ++ rest)) = some (before, after))
    (past : front.length ≤ before.length) :
    ∃ passed, before = front ++ (comment ++ passed) ∧
      Text.splitTopLevel? target (front ++ (other ++ rest)) =
        some (front ++ (other ++ passed), after) := by
  have none : ∀ glyph ∈ lead, glyph.isTopLevelChar target = false := by
    rw [Text.splitTopLevel?_eq, alike.scan] at found
    obtain ⟨⟨passed, _⟩, searched, same⟩ := Option.map_eq_some_iff.mp found
    obtain ⟨rfl, _⟩ := Prod.mk.inj same
    obtain ⟨_, split, misses, _⟩ := search_eq_some_iff.mp searched
    have sizes : lead.length ≤ passed.length := by
      simpa [← alike.leadText, Text.ofGlyphs] using past
    obtain ⟨more, rfl⟩ : lead <+: passed :=
      List.prefix_of_prefix_length_le ⟨_, split⟩ ⟨_, rfl⟩ sizes
    exact fun glyph member =>
      Text.misses_topLevelTest_iff.mp misses glyph (List.mem_append_left _ member)
  rw [alike.search_eq none] at found
  obtain ⟨⟨passed, _⟩, searched, same⟩ := Option.map_eq_some_iff.mp found
  obtain ⟨rfl, rfl⟩ := Prod.mk.inj same
  refine ⟨Text.ofGlyphs passed, rfl, ?_⟩
  rw [alike.symm.search_eq none, searched, Option.map_some]

/-- A character that is not found beside one comment is not found beside the other. -/
theorem splitTopLevel?_eq_none (alike : Alike front comment other rest lead hidden hiddenToo tail)
    {target : Char}
    (missed : Text.splitTopLevel? target (front ++ (comment ++ rest)) = none) :
    Text.splitTopLevel? target (front ++ (other ++ rest)) = none := by
  have none : ∀ glyph ∈ lead, glyph.isTopLevelChar target = false := by
    rw [Text.splitTopLevel?_eq, alike.scan, Option.map_eq_none_iff, search_eq_none_iff,
      Text.misses_topLevelTest_iff] at missed
    exact fun glyph member => missed.1 glyph (List.mem_append_left _ member)
  rw [alike.search_eq none, Option.map_eq_none_iff] at missed
  rw [alike.symm.search_eq none, missed, Option.map_none]

end Alike

end Glyph

namespace Token

open Glyph ScanState

variable {token other : Token} {rest : Text}

/-- A comment with other words between its delimiters. The new words do not end it early. -/
inductive Rewords : Token → Token → Prop
  | line {content other : Text} : (∀ c ∈ other, isBreak c = false) →
      Rewords (lineComment content) (lineComment other)
  | block {content other : Text} {closed : Bool} : ¬ ['*', '/'] <:+: other →
      Rewords (bracketed .block content closed) (bracketed .block other closed)

/-- The mode in which a comment leaves the scan. -/
def leaves : Token → Mode
  | lineComment _ => .lineComment
  | _ => .normal

/-- The token that is reworded is a comment. -/
theorem Rewords.isComment (rewords : token.Rewords other) : token.isComment = true := by
  cases rewords <;> rfl

/-- The token that replaces it is a comment. -/
theorem Rewords.isComment_other (rewords : token.Rewords other) : other.isComment = true := by
  cases rewords <;> rfl

/-- Both comments leave the scan in the same mode. -/
theorem Rewords.leaves_eq (rewords : token.Rewords other) : other.leaves = token.leaves := by
  cases rewords <;> rfl

/-- New words that do not close a comment close it in no way together with its delimiter. -/
theorem firstAfter_star_slash {content : Text} (absent : ¬ ['*', '/'] <:+: content) :
    Text.FirstAfter ['*', '/'] content (content ++ ['*', '/']) := by
  intro before after split
  rw [List.append_assoc] at split
  rcases List.append_eq_append_iff.mp split with ⟨more, rfl, _⟩ | ⟨more, rfl, shape⟩
  · simp
  · cases more with
    | nil => simp
    | cons c more =>
        cases more with
        | nil => simp at shape
        | cons d more =>
            obtain ⟨rfl, rfl, _⟩ : '*' = c ∧ '/' = d ∧ after = more ++ ['*', '/'] := by
              simpa using shape
            exact absurd ⟨before, more, by simp⟩ absent

/-- A comment that is a token of a text is one after other words have been put into it. -/
theorem Rewords.fits (rewords : token.Rewords other) (fits : token.Fits rest) :
    other.Fits rest := by
  cases rewords with
  | line unbroken => exact ⟨unbroken, fits.2⟩
  | @block content words closed absent =>
      cases closed with
      | true => exact ⟨trivial, firstAfter_star_slash absent⟩
      | false => exact ⟨trivial, absent, fits.2.2⟩

/-- Only the first character after a comment has a part in where the comment ends. -/
theorem Fits.of_head? (fits : token.Fits rest) (comment : token.isComment = true) {back : Text}
    (heads : ∀ c ∈ back.head?, rest.head? = some c) : token.Fits back := by
  match token, comment with
  | lineComment content, _ => exact ⟨fits.1, fun c first => fits.2 c (heads c first)⟩
  | bracketed .block content true, _ => exact fits
  | bracketed .block content false, _ =>
      obtain ⟨proper, absent, rfl⟩ := fits
      refine ⟨proper, absent, ?_⟩
      cases back with
      | nil => rfl
      | cons c back => exact absurd (heads c rfl) (by simp)

/-- The glyphs of a comment are hidden, and the scan goes on after it. -/
theorem Fits.hidden (fits : token.Fits rest) (comment : token.isComment = true) :
    Hidden (Text.glyphs token.written rest) ∧
      (start.after token.written rest).scan rest =
        ScanState.scan ⟨.normal, token.leaves, 0⟩ rest := by
  match token, comment with
  | lineComment content, _ =>
      obtain ⟨⟨last, reached⟩, encloses⟩ := encloses_lineComment fits
      rw [reached]
      exact ⟨encloses.hidden, scan_of_mode last .normal .lineComment rest⟩
  | bracketed .block content true, _ =>
      obtain ⟨⟨last, reached⟩, encloses⟩ := encloses_closed fits (by simp)
      rw [reached]
      exact ⟨Encloses.hidden encloses, scan_of_mode last .normal .normal rest⟩
  | bracketed .block content false, _ =>
      obtain ⟨rfl, encloses⟩ := encloses_open fits
      exact ⟨Encloses.hidden encloses, by rw [scan_nil, scan_nil]⟩

/-- The signs that open a comment stay when it is reworded. -/
theorem Rewords.signs (rewords : token.Rewords other) :
    ∃ y z inner innerToo, (y = '-' ∨ y = '/') ∧ token.written = y :: z :: inner ∧
      other.written = y :: z :: innerToo := by
  cases rewords with
  | line => exact ⟨'-', '-', _, _, Or.inl rfl, rfl, rfl⟩
  | block => exact ⟨'/', '*', _, _, Or.inr rfl, rfl, rfl⟩

/-- A block comment ends in the same character when it is reworded, and a line break ends a line
comment. -/
theorem Rewords.joins (rewords : token.Rewords other) (fits : token.Fits rest) :
    token.written.getLast? = other.written.getLast? ∨ ∀ c ∈ rest.head?, isBreak c = true := by
  cases rewords with
  | line => exact Or.inr fits.2
  | @block content words closed absent =>
      cases closed with
      | true => exact Or.inl (by simp [written, Bracket.closer, List.getLast?_append])
      | false =>
          obtain ⟨_, _, rfl⟩ := fits
          exact Or.inr (by simp)

/-- **Comments have no part in the scan.** Where a scan comes to a comment in plain text, it goes on
in the same way when the comment is reworded. -/
theorem Rewords.alike (rewords : token.Rewords other) (fits : token.Fits rest) {front : Text}
    (settles : Text.Settles front (token.written ++ rest)) :
    ∃ lead hidden hiddenToo tail,
      Alike front token.written other.written rest lead hidden hiddenToo tail := by
  obtain ⟨y, z, inner, innerToo, sign, shape, shapeToo⟩ := rewords.signs
  have fitsToo := rewords.fits fits
  obtain ⟨hidden, goesOn⟩ := fits.hidden rewords.isComment
  obtain ⟨hiddenToo, goesOnToo⟩ := fitsToo.hidden rewords.isComment_other
  have separates : isIdentifierChar y = false := by rcases sign with rfl | rfl <;> decide
  have cut (comment : Text) :
      Text.scan (comment ++ rest) =
        Text.glyphs comment rest ++ (start.after comment rest).scan rest :=
    start.scan_append comment rest
  have settlesToo : Text.Settles front (other.written ++ rest) ∧
      Text.glyphs front (other.written ++ rest) = Text.glyphs front (token.written ++ rest) := by
    rw [shape, List.cons_append] at settles ⊢
    rw [shapeToo, List.cons_append]
    exact settles.congr separates _
  refine ⟨Text.glyphs front (token.written ++ rest), Text.glyphs token.written rest,
    Text.glyphs other.written rest, ScanState.scan ⟨.normal, token.leaves, 0⟩ rest, ?_⟩
  exact {
    scan := by rw [settles.scan_append, cut, goesOn]
    scanToo := by
      rw [settlesToo.1.scan_append, settlesToo.2, cut, goesOnToo, rewords.leaves_eq]
    leadText := ofGlyphs_glyphs _ _ _
    hiddenText := ofGlyphs_glyphs _ _ _
    hiddenTooText := ofGlyphs_glyphs _ _ _
    tailText := Text.ofGlyphs_scanFrom _ _ _ _
    isHidden := hidden
    isHiddenToo := hiddenToo
    signs := ⟨y, z, inner, innerToo, sign, shape, shapeToo⟩
    joins := rewords.joins fits }

/-- A comment starts where the scan is in plain text. -/
theorem settles_of_segments {front back : List Token} {text : Text}
    (segments : Segments (front ++ token :: back) text) (comment : token.isComment = true) :
    Text.Settles (textOf front) (token.written ++ textOf back) := by
  have resumes := resumes_textOf segments (resumes_of_isPlain isPlain_start text)
  rw [textOf_cons] at resumes
  obtain ⟨c, tail, shape, solid⟩ : ∃ c tail, token.written = c :: tail ∧ isBreak c = false := by
    match token, comment with
    | lineComment content, _ => exact ⟨'-', _, rfl, rfl⟩
    | bracketed .block content closed, _ => exact ⟨'/', _, rfl, rfl⟩
  rcases resumes c (by rw [shape]; rfl) with plain | ⟨_, _, breaks⟩
  · exact plain
  · rw [breaks] at solid
    cases solid

end Token

end RoutineScripts
