import RoutineScripts.Proofs.Lexical.Normalization
import RoutineScripts.Proofs.Text.Spacing

/-!
# Texts written from glyphs

The glyphs of a scan can be written as a text with the comments masked, and again with the line
breaks normalised before. Both write a visible character outside comments as it is and white space
for anything else (`Glyph.Writing`). So any two such writings of the same glyphs are alike up to
white space (`Glyph.Writing.squeeze_write`). A part of a writing from a visible character on, or up
to one, is a writing of glyphs that its number of visible characters tells
(`Glyph.Writing.eq_write_fromLast`, `Glyph.Writing.eq_write_upTo`), so two writings have such parts
in common.
-/

namespace RoutineScripts

namespace Text

/-- What the glyphs of a text leave of it when comments are masked. -/
def maskGlyph (glyph : Glyph) : Text :=
  if glyph.isComment then List.replicate glyph.char.utf8Size ' ' else [glyph.char]

/-- Comments are masked glyph by glyph. -/
theorem maskComments_eq (text : Text) : text.maskComments = text.scan.flatMap maskGlyph := rfl

/-- A glyph of a comment is masked with as many spaces as it has bytes. -/
theorem maskGlyph_of_isComment {glyph : Glyph} (comment : glyph.isComment = true) :
    maskGlyph glyph = List.replicate glyph.char.utf8Size ' ' :=
  if_pos comment

/-- A glyph outside comments is kept. -/
theorem maskGlyph_of_code {glyph : Glyph} (code : glyph.isComment = false) :
    maskGlyph glyph = [glyph.char] :=
  if_neg (by simp [code])

/-- A character of one byte is masked with one character. -/
theorem length_maskGlyph {glyph : Glyph} (size : glyph.char.utf8Size = 1) :
    (maskGlyph glyph).length = 1 := by
  cases comment : glyph.isComment with
  | true => rw [maskGlyph_of_isComment comment, List.length_replicate, size]
  | false => rw [maskGlyph_of_code comment, List.length_singleton]

theorem maskGlyph_ne_nil (glyph : Glyph) : maskGlyph glyph ≠ [] := by
  have positive := glyph.char.utf8Size_pos
  cases comment : glyph.isComment with
  | true =>
      rw [maskGlyph_of_isComment comment]
      exact List.ne_nil_of_length_pos (by simpa using positive)
  | false =>
      rw [maskGlyph_of_code comment]
      exact List.cons_ne_nil _ _

/-- A comment is masked by as many spaces as it has bytes. -/
theorem flatMap_maskGlyph_of_isComment {glyphs : List Glyph}
    (inside : ∀ glyph ∈ glyphs, glyph.isComment = true) :
    glyphs.flatMap maskGlyph = List.replicate (ofGlyphs glyphs).byteLength ' ' := by
  induction glyphs with
  | nil => rfl
  | cons glyph glyphs ih =>
      obtain ⟨here, later⟩ := List.forall_mem_cons.mp inside
      rw [List.flatMap_cons, ih later, maskGlyph_of_isComment here]
      simp [ofGlyphs, List.replicate_append_replicate]

/-- Nothing is masked outside comments. -/
theorem flatMap_maskGlyph_of_code {glyphs : List Glyph}
    (outside : ∀ glyph ∈ glyphs, glyph.isComment = false) :
    glyphs.flatMap maskGlyph = ofGlyphs glyphs := by
  induction glyphs with
  | nil => rfl
  | cons glyph glyphs ih =>
      obtain ⟨here, later⟩ := List.forall_mem_cons.mp outside
      rw [List.flatMap_cons, ih later, maskGlyph_of_code here]
      simp [ofGlyphs]

/-- The number of visible characters of a text. -/
def visibleCount (text : Text) : Nat :=
  text.countP (!isBlank ·)

/-- The visible characters of two texts add up. -/
theorem visibleCount_append (front back : Text) :
    visibleCount (front ++ back) = visibleCount front + visibleCount back :=
  List.countP_append

theorem visibleCount_cons {c : Char} (visible : isBlank c = false) (rest : Text) :
    visibleCount (c :: rest) = visibleCount rest + 1 :=
  List.countP_cons_of_pos (by simp [visible])

/-- White space does not count. -/
theorem visibleCount_of_blank {gap : Text} (blank : ∀ c ∈ gap, isBlank c = true) :
    visibleCount gap = 0 :=
  List.countP_eq_zero.mpr fun c member => by simp [blank c member]

/-- Squeezing keeps the visible characters. -/
theorem visibleCount_squeeze (text : Text) : visibleCount (squeeze text) = visibleCount text := by
  induction text using gapInduction with
  | nil => rfl
  | cons c rest visible ih =>
      rw [squeeze_cons visible, visibleCount_cons visible, visibleCount_cons visible, ih]
  | gap gap rest nonempty blank starts ih =>
      have space : visibleCount [' '] = 0 := by decide
      rw [squeeze_gap nonempty blank, dropWhile_of_starts starts, ← List.singleton_append,
        visibleCount_append, visibleCount_append, ih, space, visibleCount_of_blank blank]

/-- Settling keeps the visible characters. -/
theorem visibleCount_settle (pending : Bool) (text : Text) :
    visibleCount (settle pending text) = visibleCount text := by
  have space : visibleCount [' '] = 0 := by decide
  induction text generalizing pending with
  | nil => rfl
  | cons c rest ih =>
      cases blank : isBlank c with
      | true =>
          rw [settle, if_pos blank, ih, ← List.singleton_append, visibleCount_append,
            visibleCount_of_blank (List.forall_mem_singleton.mpr blank), Nat.zero_add]
      | false =>
          have later : visibleCount (c :: settle false rest) = visibleCount (c :: rest) := by
            rw [visibleCount_cons blank, visibleCount_cons blank, ih]
          cases pending with
          | true =>
              have spaced := visibleCount_append [' '] (c :: settle false rest)
              rw [space, Nat.zero_add, later] at spaced
              simpa [settle, blank] using spaced
          | false => simpa [settle, blank] using later

/-- Collapsing keeps the visible characters. -/
theorem visibleCount_collapse (text : Text) : visibleCount text.collapse = visibleCount text := by
  have blank : ∀ c ∈ text.takeWhile isBlank, isBlank c = true :=
    List.all_eq_true.mp List.all_takeWhile
  have split := visibleCount_append (text.takeWhile isBlank) (text.dropWhile isBlank)
  rw [List.takeWhile_append_dropWhile, visibleCount_of_blank blank, Nat.zero_add] at split
  rw [collapse, visibleCount_settle, split]

/-- Texts with the same squeeze have as many visible characters. -/
theorem visibleCount_eq_of_squeeze {first second : Text} (same : squeeze first = squeeze second) :
    visibleCount first = visibleCount second := by
  rw [← visibleCount_squeeze first, same, visibleCount_squeeze]

/-- A text that ends in a visible character has one, unless it is empty. -/
theorem eq_nil_of_visibleCount {text : Text} (ends : text.getLast?.any isBlank = false)
    (none : visibleCount text = 0) : text = [] := by
  rcases List.eq_nil_or_concat text with empty | ⟨front, c, rfl⟩
  · exact empty
  · have visible : isBlank c = false := by simpa using ends
    rw [List.concat_eq_append, visibleCount_append, visibleCount_cons visible] at none
    omega

end Text

namespace Glyph

open Text

/-- Whether a glyph is a visible character outside comments. -/
def isShown (glyph : Glyph) : Bool :=
  !glyph.isComment && !isBlank glyph.char

/-- A glyph that is shown is visible. -/
theorem isBlank_of_isShown {glyph : Glyph} (shown : glyph.isShown = true) :
    isBlank glyph.char = false := by
  simp only [isShown, Bool.and_eq_true, Bool.not_eq_true'] at shown
  exact shown.2

/-- A line break is not shown. -/
theorem isShown_of_isBreak {glyph : Glyph} (breaks : isBreak glyph.char = true) :
    glyph.isShown = false := by
  have blank : isBlank glyph.char = true := by
    obtain feed | return' := eq_of_isBreak breaks
    · rw [feed]
      decide
    · rw [return']
      decide
  simp [isShown, blank]

/-- Neither part of a pair is shown. -/
theorem isShown_of_pair {first second : Glyph} (isReturn : first.char = '\r')
    (isFeed : second.char = '\n') : first.isShown = false ∧ second.isShown = false :=
  ⟨isShown_of_isBreak (by rw [isReturn]; rfl), isShown_of_isBreak (by rw [isFeed]; rfl)⟩

/-- The glyphs from the one on that starts the last `n` visible characters. -/
def fromLast (n : Nat) : List Glyph → List Glyph
  | [] => []
  | glyph :: rest =>
      if glyph.isShown = true ∧ (glyph :: rest).countP isShown ≤ n then glyph :: rest
      else fromLast n rest

/-- The glyphs up to the `n`-th visible character. -/
def upTo : Nat → List Glyph → List Glyph
  | 0, _ => []
  | _ + 1, [] => []
  | n + 1, glyph :: rest => glyph :: upTo (if glyph.isShown then n else n + 1) rest

/-- A glyph that is not shown does not start the last visible characters. -/
theorem fromLast_of_hidden {glyph : Glyph} (isHidden : glyph.isShown = false) (n : Nat)
    (rest : List Glyph) : fromLast n (glyph :: rest) = fromLast n rest := by
  rw [fromLast, if_neg]
  simp [isHidden]

/-- A glyph that is not shown does not count. -/
theorem upTo_of_hidden {glyph : Glyph} (isHidden : glyph.isShown = false) {n : Nat} (some : n ≠ 0)
    (rest : List Glyph) : upTo n (glyph :: rest) = glyph :: upTo n rest := by
  cases n with
  | zero => exact absurd rfl some
  | succ n => simp [upTo, isHidden]

/-- The glyphs up to a visible character are the first ones. -/
theorem upTo_prefix (n : Nat) (glyphs : List Glyph) : upTo n glyphs <+: glyphs := by
  induction glyphs generalizing n with
  | nil => cases n <;> exact List.nil_prefix
  | cons glyph rest ih =>
      cases n with
      | zero => exact List.nil_prefix
      | succ n => exact List.cons_prefix_cons.mpr ⟨rfl, ih _⟩

/-- A way to write glyphs: visible characters outside comments as they are, and white space for
anything else. A `\r\n` is written as one. -/
structure Writing where
  lone : Glyph → Text
  pair : Glyph → Glyph → Text
  shown : ∀ glyph, glyph.isShown = true → lone glyph = [glyph.char]
  hidden : ∀ glyph, glyph.isShown = false → lone glyph ≠ [] ∧ ∀ c ∈ lone glyph, isBlank c = true
  spaced : ∀ first second, first.char = '\r' → second.char = '\n' →
    pair first second ≠ [] ∧ ∀ c ∈ pair first second, isBlank c = true

namespace Writing

/-- The text of glyphs in a way of writing them. -/
def write (writing : Writing) : List Glyph → Text
  | [] => []
  | [glyph] => writing.lone glyph
  | first :: second :: rest =>
      if first.char = '\r' ∧ second.char = '\n' then
        writing.pair first second ++ writing.write rest
      else
        writing.lone first ++ writing.write (second :: rest)

variable (writing other : Writing)

theorem write_cons {glyph : Glyph} {rest : List Glyph} (lone : glyph.Lone rest) :
    writing.write (glyph :: rest) = writing.lone glyph ++ writing.write rest := by
  cases rest with
  | nil => rw [write, write, List.append_nil]
  | cons next rest => rw [write, if_neg (lone next rfl)]

/-- A pair is written as one. -/
theorem write_pair {first second : Glyph} (isReturn : first.char = '\r')
    (isFeed : second.char = '\n') (rest : List Glyph) :
    writing.write (first :: second :: rest) = writing.pair first second ++ writing.write rest := by
  rw [write, if_pos ⟨isReturn, isFeed⟩]

/-- A glyph that is shown is written as one visible character, and any other one as none. -/
theorem visibleCount_lone (glyph : Glyph) :
    visibleCount (writing.lone glyph) = if glyph.isShown then 1 else 0 := by
  cases shown : glyph.isShown with
  | true =>
      rw [writing.shown glyph shown, visibleCount_cons (isBlank_of_isShown shown)]
      rfl
  | false => exact visibleCount_of_blank (writing.hidden glyph shown).2

/-- Writing keeps the visible characters. -/
theorem visibleCount_write (glyphs : List Glyph) :
    visibleCount (writing.write glyphs) = glyphs.countP isShown := by
  induction glyphs using pairInduction with
  | nil => rfl
  | pair first second rest isReturn isFeed ih =>
      have blank := (writing.spaced first second isReturn isFeed).2
      obtain ⟨hiddenFirst, hiddenSecond⟩ := isShown_of_pair isReturn isFeed
      rw [write_pair _ isReturn isFeed, visibleCount_append, ih, visibleCount_of_blank blank,
        List.countP_cons, List.countP_cons, hiddenFirst, hiddenSecond, Nat.zero_add]
      rfl
  | cons glyph rest lone ih =>
      rw [write_cons _ lone, visibleCount_append, ih, visibleCount_lone, List.countP_cons,
        Nat.add_comm]

/-- A glyph is written as white space or as one character. -/
theorem lone_shape (glyph : Glyph) :
    (∀ c ∈ writing.lone glyph, isBlank c = true) ∨ ∃ c, writing.lone glyph = [c] := by
  cases shown : glyph.isShown with
  | true => exact Or.inr ⟨glyph.char, writing.shown glyph shown⟩
  | false => exact Or.inl (writing.hidden glyph shown).2

/-- **Writings are alike.** Two writings of the same glyphs differ in white space only. -/
theorem squeeze_write (glyphs : List Glyph) :
    squeeze (writing.write glyphs) = squeeze (other.write glyphs) := by
  induction glyphs using pairInduction with
  | nil => rfl
  | pair first second rest isReturn isFeed ih =>
      obtain ⟨nonempty, blank⟩ := writing.spaced first second isReturn isFeed
      obtain ⟨nonemptyToo, blankToo⟩ := other.spaced first second isReturn isFeed
      rw [write_pair _ isReturn isFeed, write_pair _ isReturn isFeed]
      exact squeeze_gap_congr nonempty blank nonemptyToo blankToo ih
  | cons glyph rest lone ih =>
      rw [write_cons _ lone, write_cons _ lone]
      cases shown : glyph.isShown with
      | true =>
          rw [writing.shown glyph shown, other.shown glyph shown]
          exact squeeze_append_congr [glyph.char] ih
      | false =>
          obtain ⟨nonempty, blank⟩ := writing.hidden glyph shown
          obtain ⟨nonemptyToo, blankToo⟩ := other.hidden glyph shown
          exact squeeze_gap_congr nonempty blank nonemptyToo blankToo ih

/-- A part that starts with a visible character does not start in white space. -/
theorem exists_append_of_blank {gap back front rest : Text} (blank : ∀ c ∈ gap, isBlank c = true)
    (starts : rest.head?.any isBlank = false) (split : gap ++ back = front ++ rest) :
    ∃ inner, back = inner ++ rest := by
  rcases List.append_eq_append_iff.mp split with ⟨inner, _, rfl⟩ | ⟨inner, rfl, rfl⟩
  · exact ⟨inner, rfl⟩
  · cases inner with
    | nil => exact ⟨[], rfl⟩
    | cons c inner =>
        have here : isBlank c = true := blank c (by simp)
        simp [here] at starts

/-- A character stands in front of a split, or the split is inside the rest. -/
theorem eq_or_exists_append {c : Char} {back front rest : Text}
    (split : [c] ++ back = front ++ rest) : rest = c :: back ∨ ∃ inner, back = inner ++ rest := by
  cases front with
  | nil => exact Or.inl split.symm
  | cons d front => exact Or.inr ⟨front, (List.cons.inj split).2⟩

/-- **Parts from a visible character on.** What is left of a writing from a visible character on is
a writing of the glyphs from that character on. -/
theorem eq_write_fromLast {glyphs : List Glyph} {front rest : Text}
    (split : writing.write glyphs = front ++ rest) (starts : rest.head?.any isBlank = false) :
    rest = writing.write (fromLast (visibleCount rest) glyphs) := by
  induction glyphs using pairInduction generalizing front with
  | nil =>
      obtain ⟨_, rfl⟩ := List.append_eq_nil_iff.mp split.symm
      rfl
  | pair first second tail isReturn isFeed ih =>
      rw [write_pair _ isReturn isFeed] at split
      obtain ⟨inner, whole⟩ :=
        exists_append_of_blank (writing.spaced first second isReturn isFeed).2 starts split
      obtain ⟨hiddenFirst, hiddenSecond⟩ := isShown_of_pair isReturn isFeed
      rw [fromLast_of_hidden hiddenFirst, fromLast_of_hidden hiddenSecond]
      exact ih whole
  | cons glyph tail lone ih =>
      rw [write_cons _ lone] at split
      cases shown : glyph.isShown with
      | false =>
          obtain ⟨inner, whole⟩ :=
            exists_append_of_blank (writing.hidden glyph shown).2 starts split
          rw [fromLast_of_hidden shown]
          exact ih whole
      | true =>
          have counts := writing.visibleCount_write tail
          rw [writing.shown glyph shown] at split
          rcases eq_or_exists_append split with rfl | ⟨inner, whole⟩
          · rw [visibleCount_cons (isBlank_of_isShown shown), counts, fromLast, if_pos,
              write_cons _ lone, writing.shown glyph shown, List.singleton_append]
            exact ⟨shown, Nat.le_of_eq (List.countP_cons_of_pos shown)⟩
          · have fewer : visibleCount rest ≤ tail.countP isShown := by
              rw [← counts, whole, visibleCount_append]
              exact Nat.le_add_left _ _
            rw [fromLast, if_neg]
            · exact ih whole
            · rw [List.countP_cons_of_pos shown]
              omega

/-- A part that ends in a visible character reaches past white space in front of it. -/
theorem exists_append_of_ends {piece back front rest : Text}
    (shape : (∀ c ∈ piece, isBlank c = true) ∨ ∃ c, piece = [c]) (nonempty : front ≠ [])
    (ends : front.getLast?.any isBlank = false) (split : piece ++ back = front ++ rest) :
    ∃ inner, front = piece ++ inner ∧ back = inner ++ rest ∧
      inner.getLast?.any isBlank = false := by
  rcases List.append_eq_append_iff.mp split with ⟨inner, rfl, rfl⟩ | ⟨more, rfl, rfl⟩
  · refine ⟨inner, rfl, rfl, ?_⟩
    rw [List.getLast?_append] at ends
    cases last : inner.getLast? with
    | none => rfl
    | some c => simpa [last] using ends
  · rcases shape with blank | ⟨c, single⟩
    · rcases List.eq_nil_or_concat front with empty | ⟨others, c, rfl⟩
      · exact absurd empty nonempty
      · have here : isBlank c = true := blank c (by simp)
        simp [here] at ends
    · obtain ⟨d, others, rfl⟩ := List.exists_cons_of_ne_nil nonempty
      obtain ⟨rfl, rest⟩ := List.cons.inj single
      obtain ⟨rfl, rfl⟩ := List.append_eq_nil_iff.mp rest
      exact ⟨[], rfl, rfl, rfl⟩

/-- **Parts up to a visible character.** A front of a writing that ends in a visible character is a
writing of the glyphs up to that character. -/
theorem eq_write_upTo {glyphs : List Glyph} {front rest : Text}
    (split : writing.write glyphs = front ++ rest) (ends : front.getLast?.any isBlank = false) :
    front = writing.write (upTo (visibleCount front) glyphs) := by
  induction glyphs using pairInduction generalizing front with
  | nil =>
      obtain ⟨rfl, _⟩ := List.append_eq_nil_iff.mp split.symm
      rfl
  | pair first second tail isReturn isFeed ih =>
      by_cases empty : front = []
      · rw [empty]
        rfl
      rw [write_pair _ isReturn isFeed] at split
      have blank := (writing.spaced first second isReturn isFeed).2
      have some : visibleCount front ≠ 0 := mt (eq_nil_of_visibleCount ends) empty
      obtain ⟨inner, rfl, whole, last⟩ := exists_append_of_ends (Or.inl blank) empty ends split
      rw [visibleCount_append, visibleCount_of_blank blank, Nat.zero_add] at some ⊢
      obtain ⟨hiddenFirst, hiddenSecond⟩ := isShown_of_pair isReturn isFeed
      rw [upTo_of_hidden hiddenFirst some, upTo_of_hidden hiddenSecond some,
        write_pair _ isReturn isFeed, ← ih whole last]
  | cons glyph tail lone ih =>
      by_cases empty : front = []
      · rw [empty]
        rfl
      rw [write_cons _ lone] at split
      have some : visibleCount front ≠ 0 := mt (eq_nil_of_visibleCount ends) empty
      obtain ⟨inner, rfl, whole, last⟩ :=
        exists_append_of_ends (writing.lone_shape glyph) empty ends split
      have goesOn (n : Nat) : writing.write (glyph :: upTo n tail) =
          writing.lone glyph ++ writing.write (upTo n tail) := by
        obtain ⟨more, shape⟩ := upTo_prefix n tail
        rw [← shape] at lone
        exact writing.write_cons lone.of_append
      rw [visibleCount_append, visibleCount_lone] at some ⊢
      cases shown : glyph.isShown with
      | true =>
          rw [if_pos rfl, Nat.add_comm, upTo, if_pos shown, goesOn, ← ih whole last]
      | false =>
          rw [shown, if_neg Bool.false_ne_true, Nat.zero_add] at some
          rw [if_neg Bool.false_ne_true, Nat.zero_add, upTo_of_hidden shown some, goesOn,
            ← ih whole last]

/-! ### Masked comments -/

/-- A glyph that is shown is kept. -/
theorem maskGlyph_of_isShown {glyph : Glyph} (shown : glyph.isShown = true) :
    maskGlyph glyph = [glyph.char] := by
  simp only [isShown, Bool.and_eq_true, Bool.not_eq_true'] at shown
  exact maskGlyph_of_code shown.1

/-- A glyph that is not shown is masked with white space. -/
theorem maskGlyph_of_hidden {glyph : Glyph} (isHidden : glyph.isShown = false) :
    maskGlyph glyph ≠ [] ∧ ∀ c ∈ maskGlyph glyph, isBlank c = true := by
  refine ⟨maskGlyph_ne_nil glyph, fun c member => ?_⟩
  cases comment : glyph.isComment with
  | true =>
      rw [maskGlyph_of_isComment comment] at member
      rw [List.eq_of_mem_replicate member]
      decide
  | false =>
      rw [maskGlyph_of_code comment] at member
      rw [List.mem_singleton.mp member]
      simpa [isShown, comment] using isHidden

/-- Unifying a glyph keeps whether it is shown. -/
theorem isShown_unify (glyph : Glyph) : glyph.unify.isShown = glyph.isShown := by
  cases breaks : isBreak glyph.char with
  | false => rw [unify_of_visible breaks]
  | true => rw [isShown_of_isBreak breaks, isShown_of_isBreak (isBreak_unify breaks)]

/-- Glyphs with the comments masked. -/
def masked : Writing where
  lone := maskGlyph
  pair first second := maskGlyph first ++ maskGlyph second
  shown _ := maskGlyph_of_isShown
  hidden _ := maskGlyph_of_hidden
  spaced first second isReturn isFeed := by
    have blank := (maskGlyph_of_hidden (isShown_of_isBreak (by rw [isReturn]; rfl))).2
    have blankToo := (maskGlyph_of_hidden (isShown_of_isBreak (by rw [isFeed]; rfl))).2
    refine ⟨List.append_ne_nil_of_left_ne_nil (maskGlyph_ne_nil first) _, fun c member => ?_⟩
    exact (List.mem_append.mp member).elim (blank c) (blankToo c)

/-- Glyphs with the line breaks normalised and the comments masked. -/
def normalized : Writing where
  lone glyph := maskGlyph glyph.unify
  pair first _ := maskGlyph first.unify
  shown glyph shown := by
    have visible : isBreak glyph.char = false := by
      cases breaks : isBreak glyph.char with
      | false => rfl
      | true => rw [isShown_of_isBreak breaks] at shown; cases shown
    rw [unify_of_visible visible, maskGlyph_of_isShown shown]
  hidden glyph isHidden := maskGlyph_of_hidden (by rw [isShown_unify, isHidden])
  spaced first second isReturn _ :=
    maskGlyph_of_hidden (by rw [isShown_unify, isShown_of_isBreak (by rw [isReturn]; rfl)])

/-- Masking is a way to write glyphs. -/
theorem write_masked (glyphs : List Glyph) :
    masked.write glyphs = glyphs.flatMap maskGlyph := by
  induction glyphs using pairInduction with
  | nil => rfl
  | pair first second rest isReturn isFeed ih =>
      rw [write_pair _ isReturn isFeed, ih, List.flatMap_cons, List.flatMap_cons,
        ← List.append_assoc]
      rfl
  | cons glyph rest lone ih =>
      rw [write_cons _ lone, ih, List.flatMap_cons]
      rfl

/-- Masking what was normalized is a way to write glyphs. -/
theorem write_normalized (glyphs : List Glyph) :
    normalized.write glyphs = (normalizeAll glyphs).flatMap maskGlyph := by
  induction glyphs using pairInduction with
  | nil => rfl
  | pair first second rest isReturn isFeed ih =>
      rw [write_pair _ isReturn isFeed, ih, normalizeAll_pair isReturn isFeed, List.flatMap_cons]
      rfl
  | cons glyph rest lone ih =>
      rw [write_cons _ lone, ih, normalizeAll_cons lone, List.flatMap_cons]
      rfl

end Writing

end Glyph

namespace Text

open Glyph.Writing

/-- The masked text is written from the scan. -/
theorem maskComments_eq_write (text : Text) : text.maskComments = masked.write text.scan :=
  (write_masked text.scan).symm

/-- So is the masked text after normalization. -/
theorem maskComments_normalize_eq_write (text : Text) :
    text.normalize.maskComments = normalized.write text.scan := by
  rw [maskComments_eq, scan_normalize, write_normalized]

/-- **Masked comments.** Normalising changes the spacing of a masked text and nothing else. -/
theorem squeeze_maskComments_normalize (text : Text) :
    squeeze text.normalize.maskComments = squeeze text.maskComments := by
  rw [maskComments_normalize_eq_write, maskComments_eq_write]
  exact squeeze_write normalized masked text.scan

end Text

end RoutineScripts
