import RoutineScripts.Proofs.Encoding.Utf8
import RoutineScripts.Proofs.Lexical.Balance
import RoutineScripts.Proofs.Lexical.Rewording
import RoutineScripts.Proofs.Lexical.Writing

/-!
# Masked comments

Masking puts spaces over the comments of a text. The second scan runs on a changed text, so what it
makes of the spaces and of what stands next to them has to be settled. The tokens tell: a comment
becomes plain spaces (`Token.masked`), and any other token stays, because it ends at the same
place when the text after it is masked (`Token.Fits.masked`). No delimiter holds a space, so none
comes about next to one (`Text.prefix_of_prefix_maskComments`). This gives the tokens of a masked
text (`Token.Segments.masked`).

The main statement is `Text.maskComments_exact`: masking changes the bytes of the comments and no
others, leaves no comment, and adds those bytes to the top-level offsets.
-/

namespace RoutineScripts

namespace Text

/-- Whether the byte at an offset belongs to a comment. -/
def isCommentAt (text : Text) (offset : Nat) : Bool :=
  text.commentSpans.any fun (first, last) => first ≤ offset && offset < last

/-- An offset is in a comment when one of the comment spans holds it. -/
theorem isCommentAt_iff {text : Text} {offset : Nat} :
    text.isCommentAt offset = true ↔
      ∃ span ∈ text.commentSpans, span.1 ≤ offset ∧ offset < span.2 := by
  simp [isCommentAt]

/-- **Masking adds spaces only.** A front without spaces of a masked text is one of the text. -/
theorem prefix_of_prefix_maskComments {front text : Text} (solid : ' ' ∉ front)
    (leads : front <+: text.maskComments) : front <+: text := by
  rw [maskComments_eq] at leads
  rw [← ofGlyphs_scan text]
  generalize text.scan = glyphs at leads ⊢
  induction front generalizing glyphs with
  | nil => exact List.nil_prefix
  | cons c front ih =>
      obtain ⟨differs, solid⟩ := List.ne_and_not_mem_of_not_mem_cons solid
      cases glyphs with
      | nil => exact absurd (List.prefix_nil.mp leads) (List.cons_ne_nil c front)
      | cons glyph glyphs =>
          rw [List.flatMap_cons] at leads
          cases comment : glyph.isComment with
          | true =>
              obtain ⟨size, whole⟩ := Nat.exists_eq_add_one.mpr glyph.char.utf8Size_pos
              rw [maskGlyph_of_isComment comment, whole, List.replicate_succ, List.cons_append,
                List.cons_prefix_cons] at leads
              exact absurd leads.1.symm differs
          | false =>
              rw [maskGlyph_of_code comment, List.singleton_append, List.cons_prefix_cons] at leads
              exact List.cons_prefix_cons.mpr ⟨leads.1, ih solid glyphs leads.2⟩

end Text

/-- The glyphs of a token are all in a comment, or all outside. -/
theorem Glyph.Encloses.isComment_eq {inComment : Bool} {glyphs : List Glyph}
    (encloses : Encloses inComment glyphs) : ∀ glyph ∈ glyphs, glyph.isComment = inComment := by
  obtain ⟨first, covered, rfl, _, comment, _, covers⟩ := encloses
  exact List.forall_mem_cons.mpr ⟨comment, fun glyph member => (covers glyph member).2.2⟩

/-- No opener holds a space. -/
theorem IsOpener.solid {opener : Text} (isOpener : IsOpener opener) : ' ' ∉ opener := by
  rcases isOpener with rfl | rfl | isTag | rfl | rfl
  · decide
  · decide
  · exact IsDollarTag.not_mem isTag (by decide) (by decide)
  · decide
  · decide

namespace Token

open Glyph ScanState

variable {token : Token} {tokens : List Token} {text rest : Text}

/-- The quote that closes a span outside comments belongs to no comment either. -/
theorem isComment_of_quote {mode last : Mode} {front : Text} {quote : Char}
    (outside : mode.isComment = false)
    (reached : start.after front (quote :: rest) = ⟨last, mode, 0⟩)
    (encloses : Encloses mode.isComment (start.glyphs front (quote :: rest)))
    (step : mode.advance quote rest = ⟨.normal, 0⟩) :
    ∀ glyph ∈ Text.glyphs (front ++ [quote]) rest, glyph.isComment = false := by
  rw [outside] at encloses
  rw [glyphs_of_quote reached step]
  refine List.forall_mem_append.mpr ⟨encloses.isComment_eq, List.forall_mem_singleton.mpr ?_⟩
  simp [Glyph.isComment, Mode.isComment]

/-- All glyphs of a token are in a comment, or none is. -/
theorem Fits.isComment_eq (fits : token.Fits rest) :
    ∀ glyph ∈ Text.glyphs token.written rest, glyph.isComment = token.isComment := by
  cases token with
  | plain c =>
      rw [written, glyphs_plain fits]
      exact List.forall_mem_singleton.mpr rfl
  | lineComment content => exact (encloses_lineComment fits).2.isComment_eq
  | literal content closed =>
      cases closed with
      | true =>
          obtain ⟨⟨last, reached⟩, encloses⟩ := encloses_literal fits.1 ('\'' :: rest)
          have step : Mode.singleQuoted.advance '\'' rest = ⟨.normal, 0⟩ := by
            simp [Mode.advance, fits.2]
          exact isComment_of_quote rfl reached encloses step
      | false =>
          obtain ⟨doubled, rfl⟩ := fits
          rw [show (literal content false).written = ['\''] ++ content by simp [written]]
          exact (encloses_literal doubled []).2.isComment_eq
  | bracketed bracket content closed =>
      cases closed with
      | false => exact (encloses_open fits).2.isComment_eq
      | true =>
          by_cases quote : bracket = .name
          · subst quote
            obtain ⟨⟨last, reached⟩, encloses⟩ := encloses_bracketed fits
            have step : Mode.doubleQuoted.advance '"' rest = ⟨.normal, 0⟩ := rfl
            exact isComment_of_quote rfl reached encloses step
          · exact (encloses_closed fits quote).2.isComment_eq

/-- What masking makes of a token: a comment becomes as many spaces as it has bytes. -/
def masked (token : Token) : List Token :=
  if token.isComment then List.replicate token.written.byteLength (plain ' ') else [token]

/-- A comment is masked with as many spaces as it has bytes. -/
theorem masked_of_isComment (comment : token.isComment = true) :
    token.masked = List.replicate token.written.byteLength (plain ' ') :=
  if_pos comment

/-- A token that is no comment is kept. -/
theorem masked_of_code (code : token.isComment = false) : token.masked = [token] :=
  if_neg (by simp [code])

/-- Tokens that are spaces spell spaces. -/
theorem textOf_spaces (count : Nat) :
    textOf (List.replicate count (plain ' ')) = List.replicate count ' ' := by
  induction count with
  | zero => rfl
  | succ count ih =>
      rw [List.replicate_succ, textOf_cons, ih]
      rfl

/-- The text of a masked token is spaces or the token. -/
theorem textOf_masked (token : Token) :
    textOf token.masked =
      if token.isComment then List.replicate token.written.byteLength ' ' else token.written := by
  cases comment : token.isComment with
  | true => rw [masked_of_isComment comment, textOf_spaces, if_pos rfl]
  | false => simp [masked_of_code comment, textOf]

/-- Spaces take one byte each. -/
theorem byteLength_spaces (count : Nat) :
    Text.byteLength (List.replicate count ' ') = count := by
  induction count with
  | zero => rfl
  | succ count ih =>
      have small : ' '.utf8Size = 1 := rfl
      rw [List.replicate_succ, Text.byteLength_cons, ih, small, Nat.add_comm]

/-- Masking keeps the byte length of a token. -/
theorem byteLength_masked (token : Token) :
    (textOf token.masked).byteLength = token.written.byteLength := by
  rw [textOf_masked]
  split
  · exact byteLength_spaces _
  · rfl

/-- Masking keeps the byte length of a list of tokens. -/
theorem byteLength_flatMap_masked (tokens : List Token) :
    (textOf (tokens.flatMap Token.masked)).byteLength = (textOf tokens).byteLength := by
  induction tokens with
  | nil => rfl
  | cons token tokens ih =>
      rw [List.flatMap_cons, textOf_append, textOf_cons, Text.byteLength_append,
        Text.byteLength_append, byteLength_masked, ih]

/-- **Masking goes token by token.** -/
theorem Fits.maskComments_append (fits : token.Fits rest) :
    Text.maskComments (token.written ++ rest) = textOf token.masked ++ rest.maskComments := by
  have cut : (token.written ++ rest).scan =
      Text.glyphs token.written rest ++ (start.after token.written rest).scan rest :=
    start.scan_append token.written rest
  have later : ((start.after token.written rest).scan rest).flatMap Text.maskGlyph =
      rest.maskComments := by
    rw [Text.maskComments_eq]
    cases rest with
    | nil => rw [scan_nil]; rfl
    | cons c tail =>
        obtain ⟨first, fresh, others, resumed, whole, char, _, comment, _⟩ :=
          fits.reads.resumes.scan_eq
        rw [resumed, whole, List.flatMap_cons, List.flatMap_cons, Text.maskGlyph, Text.maskGlyph,
          char, comment]
  have glyphs := fits.isComment_eq
  rw [Text.maskComments_eq, cut, List.flatMap_append, later, textOf_masked]
  cases comment : token.isComment with
  | true =>
      rw [comment] at glyphs
      rw [Text.flatMap_maskGlyph_of_isComment glyphs, Text.glyphs, ofGlyphs_glyphs]
      rfl
  | false =>
      rw [comment] at glyphs
      rw [Text.flatMap_maskGlyph_of_code glyphs, Text.glyphs, ofGlyphs_glyphs]
      rfl

/-- **Masking moves no boundary.** A token that is no comment ends at the same place when the text
after it is masked. -/
theorem Fits.masked (fits : token.Fits rest) (code : token.isComment = false) :
    token.Fits rest.maskComments := by
  have empty : Text.maskComments [] = [] := rfl
  cases token with
  | plain c =>
      intro opener isOpener leads
      apply fits opener isOpener
      cases opener with
      | nil => exact List.nil_prefix
      | cons d opener =>
          obtain ⟨rfl, later⟩ := List.cons_prefix_cons.mp leads
          have solid : ' ' ∉ opener := List.not_mem_of_not_mem_cons isOpener.solid
          exact List.cons_prefix_cons.mpr ⟨rfl, Text.prefix_of_prefix_maskComments solid later⟩
  | lineComment content => cases code
  | literal content closed =>
      cases closed with
      | true =>
          refine ⟨fits.1, fun quote => fits.2 ?_⟩
          obtain ⟨others, shape⟩ := List.head?_eq_some_iff.mp quote
          obtain ⟨more, rfl⟩ : ['\''] <+: rest :=
            Text.prefix_of_prefix_maskComments (by decide) ⟨others, shape.symm⟩
          rfl
      | false =>
          obtain ⟨doubled, rfl⟩ := fits
          exact ⟨doubled, empty⟩
  | bracketed bracket content closed =>
      cases closed with
      | true => exact fits
      | false =>
          obtain ⟨proper, absent, rfl⟩ := fits
          exact ⟨proper, absent, empty⟩

/-- Spaces in front of a text are tokens of their own. -/
theorem segments_spaces (count : Nat) (segments : Segments tokens text) :
    Segments (List.replicate count (plain ' ') ++ tokens) (List.replicate count ' ' ++ text) := by
  induction count with
  | zero => exact segments
  | succ count ih =>
      rw [List.replicate_succ, List.replicate_succ, List.cons_append, List.cons_append]
      exact ⟨_, rfl, fits_plain (by decide) _, ih⟩

/-- **The tokens of a masked text.** -/
theorem Segments.masked (segments : Segments tokens text) :
    Segments (tokens.flatMap Token.masked) text.maskComments := by
  induction tokens generalizing text with
  | nil =>
      obtain rfl : text = [] := segments
      rfl
  | cons token tokens ih =>
      obtain ⟨rest, rfl, fits, others⟩ := segments
      rw [List.flatMap_cons, fits.maskComments_append, textOf_masked]
      cases comment : token.isComment with
      | true =>
          rw [masked_of_isComment comment, if_pos rfl]
          exact segments_spaces _ (ih others)
      | false =>
          rw [masked_of_code comment, if_neg Bool.false_ne_true]
          exact ⟨rest.maskComments, rfl, fits.masked comment, ih others⟩

/-- What masking makes of a token is no comment. -/
theorem isComment_of_mem_masked {other : Token} (member : other ∈ token.masked) :
    other.isComment = false := by
  cases comment : token.isComment with
  | true =>
      rw [masked_of_isComment comment] at member
      rw [List.eq_of_mem_replicate member]
      rfl
  | false =>
      rw [masked_of_code comment] at member
      rwa [List.mem_singleton.mp member]

/-- What masking makes of a list of tokens holds no comment. -/
theorem isComment_of_mem_flatMap_masked :
    ∀ token ∈ tokens.flatMap Token.masked, token.isComment = false := by
  intro token member
  obtain ⟨_, _, inside⟩ := List.mem_flatMap.mp member
  exact isComment_of_mem_masked inside

/-- Tokens without comments are kept. -/
theorem flatMap_masked_of_code (code : ∀ token ∈ tokens, token.isComment = false) :
    tokens.flatMap Token.masked = tokens := by
  induction tokens with
  | nil => rfl
  | cons token tokens ih =>
      obtain ⟨here, later⟩ := List.forall_mem_cons.mp code
      rw [List.flatMap_cons, masked_of_code here, ih later, List.singleton_append]

/-! ### Offsets -/

/-- The tokens of two lists are placed one list after the other. -/
theorem placed_append (offset : Nat) (front back : List Token) :
    placed offset (front ++ back) =
      placed offset front ++ placed (offset + (textOf front).byteLength) back := by
  induction front generalizing offset with
  | nil => rfl
  | cons token front ih =>
      rw [List.cons_append, placed, placed, ih, textOf_cons, Text.byteLength_append,
        List.cons_append, Nat.add_assoc]

/-- The byte offsets at top level in tokens, the first of which starts at `offset`. -/
def topLevelAfter (offset : Nat) (tokens : List Token) : List Nat :=
  (placed offset tokens).flatMap fun (place, token) => token.topLevel place

/-- A byte offset belongs to a comment among tokens, the first of which starts at `offset`. -/
def Comments (offset : Nat) (tokens : List Token) (place : Nat) : Prop :=
  ∃ first token, (first, token) ∈ placed offset tokens ∧ token.isComment = true ∧
    first ≤ place ∧ place < first + token.written.byteLength

/-- The offsets at top level of two lists are those of each. -/
theorem topLevelAfter_append (offset : Nat) (front back : List Token) :
    topLevelAfter offset (front ++ back) =
      topLevelAfter offset front ++ topLevelAfter (offset + (textOf front).byteLength) back := by
  rw [topLevelAfter, placed_append, List.flatMap_append]
  rfl

theorem comments_cons {offset place : Nat} :
    Comments offset (token :: tokens) place ↔
      token.isComment = true ∧ offset ≤ place ∧ place < offset + token.written.byteLength ∨
        Comments (offset + token.written.byteLength) tokens place := by
  constructor
  · intro ⟨first, other, member, inside⟩
    rcases List.mem_cons.mp member with same | later
    · obtain ⟨rfl, rfl⟩ := Prod.mk.inj same
      exact Or.inl inside
    · exact Or.inr ⟨first, other, later, inside⟩
  · intro inside
    rcases inside with here | ⟨first, other, later, inside⟩
    · exact ⟨offset, token, List.mem_cons_self, here⟩
    · exact ⟨first, other, List.mem_cons_of_mem _ later, inside⟩

/-- An offset in a comment is not before the tokens. -/
theorem le_of_comments {offset place : Nat} (inside : Comments offset tokens place) :
    offset ≤ place := by
  induction tokens generalizing offset with
  | nil =>
      obtain ⟨_, _, member, _⟩ := inside
      cases member
  | cons token tokens ih =>
      rcases comments_cons.mp inside with here | later
      · exact here.2.1
      · exact Nat.le_trans (Nat.le_add_right _ _) (ih later)

/-- No offset in a comment is at top level. -/
theorem topLevel_of_isComment (comment : token.isComment = true) (offset : Nat) :
    token.topLevel offset = [] := by
  cases token with
  | plain c => cases comment
  | lineComment content => rfl
  | literal content closed => cases comment
  | bracketed bracket content closed =>
      cases bracket with
      | block => rfl
      | _ => cases comment

/-- All offsets in spaces are at top level. -/
theorem topLevelAfter_spaces (offset count : Nat) :
    topLevelAfter offset (List.replicate count (plain ' ')) = List.range' offset count := by
  induction count generalizing offset with
  | zero => rfl
  | succ count ih =>
      rw [List.replicate_succ, List.range'_succ, ← ih]
      rfl

theorem mem_of_mem_placed {offset first : Nat} (member : (first, token) ∈ placed offset tokens) :
    token ∈ tokens := by
  induction tokens generalizing offset with
  | nil => cases member
  | cons other tokens ih =>
      rcases List.mem_cons.mp member with same | later
      · exact List.mem_cons.mpr (Or.inl (Prod.mk.inj same).2)
      · exact List.mem_cons_of_mem _ (ih later)

/-- **Top-level offsets of a masked text.** The bytes of the comments come to those of the text. -/
theorem mem_topLevelAfter_masked {offset place : Nat} :
    place ∈ topLevelAfter offset (tokens.flatMap Token.masked) ↔
      place ∈ topLevelAfter offset tokens ∨ Comments offset tokens place := by
  induction tokens generalizing offset with
  | nil => simp [topLevelAfter, placed, Comments]
  | cons token tokens ih =>
      have split : topLevelAfter offset (token :: tokens) =
          token.topLevel offset ++ topLevelAfter (offset + token.written.byteLength) tokens := rfl
      rw [List.flatMap_cons, topLevelAfter_append, byteLength_masked, split, List.mem_append,
        List.mem_append, ih, comments_cons]
      cases comment : token.isComment with
      | true =>
          rw [masked_of_isComment comment, topLevelAfter_spaces, List.mem_range'_1,
            topLevel_of_isComment comment]
          simp [or_left_comm]
      | false =>
          have alone : topLevelAfter offset token.masked = token.topLevel offset := by
            simp [masked_of_code comment, topLevelAfter, placed]
          rw [alone]
          simp [or_assoc]

/-- The bytes of spaces are spaces. -/
theorem getElem?_encode_spaces {count index : Nat} (inside : index < count) :
    (Utf8.encode (List.replicate count ' '))[index]? = some 0x20 := by
  have bytes : Utf8.encode (List.replicate count ' ') = List.replicate count 0x20 := by
    rw [Utf8.encode, List.flatMap_replicate]
    exact List.flatten_replicate_singleton
  rw [bytes, List.getElem?_replicate, if_pos inside]

/-- **Bytes of a masked text.** Those of the comments are spaces, and the others stay. -/
theorem getElem?_encode_masked (tokens : List Token) (offset index : Nat) :
    (Comments offset tokens (offset + index) →
      (Utf8.encode (textOf (tokens.flatMap Token.masked)))[index]? = some 0x20) ∧
    (¬ Comments offset tokens (offset + index) →
      (Utf8.encode (textOf (tokens.flatMap Token.masked)))[index]? =
        (Utf8.encode (textOf tokens))[index]?) := by
  induction tokens generalizing offset index with
  | nil =>
      refine ⟨fun ⟨_, _, member, _⟩ => ?_, fun _ => rfl⟩
      cases member
  | cons token tokens ih =>
      have size := byteLength_masked token
      rw [← Utf8.length_encode, ← Utf8.length_encode token.written] at size
      rw [List.flatMap_cons, textOf_append, textOf_cons, Utf8.encode_append, Utf8.encode_append,
        comments_cons, ← Utf8.length_encode]
      by_cases here : index < (Utf8.encode token.written).length
      · have early : ¬ Comments (offset + (Utf8.encode token.written).length) tokens
            (offset + index) := fun later => by
          have beyond := le_of_comments later
          omega
        rw [List.getElem?_append_left (by omega), List.getElem?_append_left here, textOf_masked]
        cases comment : token.isComment with
        | true =>
            have inside := Utf8.length_encode token.written ▸ here
            exact ⟨fun _ => getElem?_encode_spaces inside, fun outside =>
              absurd (Or.inl ⟨rfl, Nat.le_add_right _ _, by omega⟩) outside⟩
        | false => exact ⟨fun inside => by simp [early] at inside, fun _ => rfl⟩
      · obtain ⟨inner, rfl⟩ : ∃ inner, index = (Utf8.encode token.written).length + inner :=
          ⟨index - (Utf8.encode token.written).length, by omega⟩
        have passed : ¬ (token.isComment = true ∧ offset ≤ offset +
            ((Utf8.encode token.written).length + inner) ∧
            offset + ((Utf8.encode token.written).length + inner) <
              offset + (Utf8.encode token.written).length) := by
          omega
        have later := ih (offset + (Utf8.encode token.written).length) inner
        rw [Nat.add_assoc] at later
        rw [or_iff_right passed, List.getElem?_append_right (by omega),
          List.getElem?_append_right (by omega), size, Nat.add_sub_cancel_left]
        exact later

end Token

namespace Text

/-- The bytes in comments are those of the comment tokens. -/
theorem isCommentAt_iff_comments {tokens : List Token} {text : Text}
    (segments : Token.Segments tokens text) (offset : Nat) :
    text.isCommentAt offset = true ↔ Token.Comments 0 tokens offset := by
  rw [isCommentAt_iff, commentSpans, Token.commentsFrom_scan segments]
  constructor
  · intro ⟨span, member, inside⟩
    obtain ⟨⟨first, token⟩, kept, rfl⟩ := List.mem_map.mp member
    obtain ⟨placed, comment⟩ := List.mem_filter.mp kept
    exact ⟨first, token, placed, comment, inside⟩
  · intro ⟨first, token, placed, comment, inside⟩
    exact ⟨_, List.mem_map_of_mem (List.mem_filter.mpr ⟨placed, comment⟩), inside⟩

/-- The offsets at top level of a text are those of its tokens. -/
theorem topLevelPositions_of_segments {tokens : List Token} {text : Text}
    (segments : Token.Segments tokens text) :
    text.topLevelPositions 0 = Token.topLevelAfter 0 tokens := by
  rw [Token.topLevelAfter, ← Token.topLevelFrom_scan segments]
  exact topLevelPositions_append [] text

/-- No token of a masked text is a comment, so masking again finds nothing to mask. -/
theorem maskComments_maskComments (text : Text) :
    text.maskComments.maskComments = text.maskComments := by
  obtain ⟨tokens, segments⟩ := Token.exists_segments text
  have again := segments.masked.masked.eq_textOf
  rw [Token.flatMap_masked_of_code Token.isComment_of_mem_flatMap_masked] at again
  rw [again, ← segments.masked.eq_textOf]

/-- **Masking is exact.** A masked text has the bytes of the text outside its comments and a space
for each byte inside. It has no comment left, so masking it again changes nothing. Its top-level
offsets are those of the text together with the bytes of the comments, in increasing order. Its
tokens are those of the text with spaces for each comment. -/
theorem maskComments_exact (text : Text) :
    text.maskComments.byteLength = text.byteLength ∧
    (∀ offset, (Utf8.encode text.maskComments)[offset]? =
      if text.isCommentAt offset then some 0x20 else (Utf8.encode text)[offset]?) ∧
    text.maskComments.commentSpans = [] ∧
    text.maskComments.maskComments = text.maskComments ∧
    (text.maskComments.topLevelPositions 0).Pairwise (· < ·) ∧
    (∀ offset, offset ∈ text.maskComments.topLevelPositions 0 ↔
      offset ∈ text.topLevelPositions 0 ∨ text.isCommentAt offset = true) ∧
    ∃ tokens, Token.Segments tokens text ∧
      Token.Segments (tokens.flatMap Token.masked) text.maskComments := by
  obtain ⟨tokens, segments⟩ := Token.exists_segments text
  have maskedSegments := segments.masked
  have whole : text = Token.textOf tokens := segments.eq_textOf
  have maskedWhole : text.maskComments = Token.textOf (tokens.flatMap Token.masked) :=
    maskedSegments.eq_textOf
  have bytes (offset : Nat) : (Utf8.encode text.maskComments)[offset]? =
      if text.isCommentAt offset then some 0x20 else (Utf8.encode text)[offset]? := by
    obtain ⟨inside, outside⟩ := Token.getElem?_encode_masked tokens 0 offset
    rw [Nat.zero_add, ← isCommentAt_iff_comments segments, ← maskedWhole] at inside outside
    rw [← whole] at outside
    by_cases comment : text.isCommentAt offset = true
    · rw [if_pos comment, inside comment]
    · rw [if_neg comment, outside comment]
  refine ⟨?_, bytes, ?_, maskComments_maskComments text, sorted_topLevelPositions _ 0,
    fun offset => ?_, tokens, segments, maskedSegments⟩
  · rw [maskedWhole, whole]
    exact Token.byteLength_flatMap_masked tokens
  · rw [commentSpans, Token.commentsFrom_scan maskedSegments, List.map_eq_nil_iff,
      List.filter_eq_nil_iff]
    intro ⟨first, token⟩ placed
    simp [Token.isComment_of_mem_flatMap_masked token (Token.mem_of_mem_placed placed)]
  · rw [topLevelPositions_of_segments maskedSegments, topLevelPositions_of_segments segments,
      Token.mem_topLevelAfter_masked, isCommentAt_iff_comments segments]

/-- The signs around a comment do not come together, and a comment in a literal stays. -/
example : maskComments "-/*-*/- '--' --".toList = "-     - '--'   ".toList := by decide

end Text

end RoutineScripts
