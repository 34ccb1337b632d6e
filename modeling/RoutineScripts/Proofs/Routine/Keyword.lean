import RoutineScripts.Proofs.Lexical.Position
import RoutineScripts.Proofs.Routine.Literal
import RoutineScripts.Proofs.Text.Words

/-!
# The keyword of a body by byte offsets

The body of a routine follows the first `AS` at top level outside parentheses. Said with byte
offsets, this is the first offset in the list of top-level offsets that is at parenthesis depth
zero and starts the word (`Text.IsBodyKeyword`). The depth at an offset is counted over the earlier
offsets of the same list (`Text.depthAt`), so nothing in this description reads the text after the
keyword or keeps a state of its own.

The search that reads the body splits its text after the first such offset
(`Text.isFirstBodyKeyword_of_splitAs?`), and finds nothing only when there is none
(`Text.not_isBodyKeyword_of_splitAs?`).
-/

namespace RoutineScripts

namespace Text

/-- The parenthesis depth after one more character. A closing parenthesis too many counts as
none. -/
def depthStep (depth : Nat) : Option Char → Nat
  | some '(' => depth + 1
  | some ')' => depth - 1
  | _ => depth

/-- The parenthesis depth at a byte offset, counted over the top-level offsets before it. -/
def depthAt (text : Text) (start place : Nat) : Nat :=
  ((text.topLevelPositions start).filter (· < place)).foldl
    (fun depth offset => depthStep depth (text.charAt? offset)) 0

/-- The keyword `AS` stands at a byte offset, at top level and outside parentheses in a scan from
`start`. -/
def IsBodyKeyword (text : Text) (start place : Nat) : Prop :=
  place ∈ text.topLevelPositions start ∧ text.depthAt start place = 0 ∧
    text.isKeywordAt place ['A', 'S'] = true

/-- The first keyword of a body in a scan from `start`. -/
def IsFirstBodyKeyword (text : Text) (start place : Nat) : Prop :=
  text.IsBodyKeyword start place ∧ ∀ other, text.IsBodyKeyword start other → place ≤ other

/-- Offsets at which no character starts leave the depth as it is. -/
theorem foldl_depthStep_of_charAt?_eq_none {text : Text} {offsets : List Nat}
    (nothing : ∀ offset ∈ offsets, text.charAt? offset = none) (depth : Nat) :
    offsets.foldl (fun depth offset => depthStep depth (text.charAt? offset)) depth = depth := by
  refine List.foldlRecOn (motive := fun reached => reached = depth) _ _ rfl ?_
  intro reached same offset member
  rw [nothing offset member, same]
  rfl

end Text

namespace Glyph

/-- The parenthesis depth after a glyph. -/
def depthStep (depth : Nat) (glyph : Glyph) : Nat :=
  if glyph.isTopLevel then Text.depthStep depth (some glyph.char) else depth

/-- An opening parenthesis goes one deeper, and a closing one goes back. -/
theorem depthStep_eq (depth : Nat) (glyph : Glyph) :
    depthStep depth glyph =
      if glyph.isTopLevelChar '(' then depth + 1
      else if glyph.isTopLevelChar ')' then depth - 1
      else depth := by
  unfold depthStep isTopLevelChar
  cases glyph.isTopLevel with
  | false => simp
  | true =>
      by_cases opening : glyph.char = '('
      · simp [opening, Text.depthStep]
      · by_cases closing : glyph.char = ')'
        · simp [closing, Text.depthStep]
        · simp [opening, closing, Text.depthStep]

/-- The offsets at top level count the parentheses of the glyphs at top level. -/
theorem foldl_topLevelFrom (depth : Nat) (front back : Text) (glyphs : List Glyph) :
    (topLevelFrom front.byteLength glyphs).foldl
        (fun depth offset =>
          Text.depthStep depth ((front ++ (Text.ofGlyphs glyphs ++ back)).charAt? offset)) depth =
      glyphs.foldl depthStep depth := by
  induction glyphs generalizing depth front with
  | nil => rfl
  | cons glyph rest ih =>
      have whole : front ++ (Text.ofGlyphs (glyph :: rest) ++ back) =
          front ++ [glyph.char] ++ (Text.ofGlyphs rest ++ back) := by
        simp [Text.ofGlyphs]
      have size : front.byteLength + glyph.char.utf8Size =
          (front ++ [glyph.char]).byteLength := by
        simp
      have first : (front ++ (Text.ofGlyphs (glyph :: rest) ++ back)).charAt? front.byteLength =
          some glyph.char :=
        Text.charAt?_append front _
      -- No character starts at the bytes of a character after its first one.
      have others : ∀ offset ∈ List.range' (front.byteLength + 1) (glyph.char.utf8Size - 1),
          (front ++ (Text.ofGlyphs (glyph :: rest) ++ back)).charAt? offset = none :=
        fun offset inside => charAt?_of_mem_range' inside
      have later (depth : Nat) := ih depth (front ++ [glyph.char])
      rw [← whole] at later
      rw [topLevelFrom, size, List.foldl_cons]
      by_cases topLevel : glyph.isTopLevel = true
      · rw [if_pos topLevel, List.foldl_append, range'_utf8Size, List.foldl_cons, first,
          Text.foldl_depthStep_of_charAt?_eq_none others, later, depthStep, if_pos topLevel]
      · rw [if_neg topLevel, later, depthStep, if_neg topLevel]

end Glyph

namespace Text

/-- An identifier character takes one byte. -/
theorem utf8Size_of_isIdentifierChar {c : Char} (identifier : isIdentifierChar c = true) :
    c.utf8Size = 1 := by
  rw [Char.utf8Size_eq_one_iff, UInt32.le_iff_toNat_le]
  exact Nat.le_of_lt_succ (toNat_lt_of_isIdentifierChar identifier)

/-- The letters of the keyword have one byte each. -/
theorem utf8Size_of_toLower {c : Char} (letter : c.toLower = 'a' ∨ c.toLower = 's') :
    c.utf8Size = 1 := by
  unfold Char.toLower at letter
  split at letter
  case isTrue upper =>
    rw [Char.utf8Size_eq_one_iff, UInt32.le_iff_toNat_le]
    exact Nat.le_trans (UInt32.le_iff_toNat_le.mp upper.2) (by decide)
  case isFalse => rcases letter with rfl | rfl <;> rfl

/-! ### The first keyword among glyphs -/

/-- The keyword of a body starts with `glyph`, when `passed` was read from the given depth on. -/
def Marks (previous : Option Char) (depth : Nat) (passed : List Glyph) (glyph : Glyph)
    (rest : List Glyph) : Prop :=
  glyph.isTopLevel = true ∧ passed.foldl Glyph.depthStep depth = 0 ∧
    keywordAt ((ofGlyphs passed).getLast?.or previous) (ofGlyphs (glyph :: rest)) ['A', 'S'] = true

/-- No keyword of a body starts among `glyphs`, when `back` follows. -/
def Unmarked (previous : Option Char) (depth : Nat) (glyphs back : List Glyph) : Prop :=
  ∀ passed glyph rest, glyphs = passed ++ glyph :: rest →
    ¬ Marks previous depth passed glyph (rest ++ back)

theorem marks_cons {previous : Option Char} {depth : Nat} {first : Glyph} {passed : List Glyph}
    {glyph : Glyph} {rest : List Glyph} :
    Marks previous depth (first :: passed) glyph rest ↔
      Marks (some first.char) (Glyph.depthStep depth first) passed glyph rest := by
  have last : (ofGlyphs (first :: passed)).getLast?.or previous =
      (ofGlyphs passed).getLast?.or (some first.char) := by
    cases passed <;> simp [ofGlyphs, List.getLast?_cons]
  rw [Marks, Marks, last, List.foldl_cons]

theorem unmarked_nil {previous : Option Char} {depth : Nat} {back : List Glyph} :
    Unmarked previous depth [] back := by
  intro passed glyph rest split
  simp at split

theorem unmarked_cons {previous : Option Char} {depth : Nat} {first : Glyph}
    {glyphs back : List Glyph} :
    Unmarked previous depth (first :: glyphs) back ↔
      ¬ Marks previous depth [] first (glyphs ++ back) ∧
        Unmarked (some first.char) (Glyph.depthStep depth first) glyphs back := by
  constructor
  · intro unmarked
    refine ⟨unmarked [] first glyphs rfl, fun passed glyph rest split marks => ?_⟩
    exact unmarked (first :: passed) glyph rest (by rw [split]; rfl) (marks_cons.mpr marks)
  · rintro ⟨notHere, notLater⟩ passed glyph rest split marks
    cases passed with
    | nil =>
        obtain ⟨rfl, rfl⟩ := List.cons.inj split
        exact notHere marks
    | cons other passed =>
        obtain ⟨rfl, rfl⟩ := List.cons.inj split
        exact notLater passed glyph rest rfl (marks_cons.mp marks)

theorem marks_nil_iff {previous : Option Char} {depth : Nat} {glyph : Glyph} {rest : List Glyph} :
    Marks previous depth [] glyph rest ↔
      (glyph.isTopLevel && depth == 0
        && keywordAt previous (ofGlyphs ((glyph :: rest).take 3)) ['A', 'S']) = true := by
  have seen : ofGlyphs ((glyph :: rest).take 3) = (ofGlyphs (glyph :: rest)).take 3 :=
    List.map_take
  rw [seen, keywordAt_take, Marks]
  simp [ofGlyphs, and_assoc]

/-- Where no keyword starts, the search for one goes on. -/
theorem splitAs?_of_not_marks {previous : Option Char} {depth : Nat} {glyph : Glyph}
    {rest : List Glyph} (notHere : ¬ Marks previous depth [] glyph rest) :
    splitAs? previous depth (glyph :: rest) =
      (splitAs? (some glyph.char) (Glyph.depthStep depth glyph) rest).map
        fun (before, after) => (glyph.char :: before, after) := by
  rw [marks_nil_iff] at notHere
  rw [splitAs?, if_neg notHere, Glyph.depthStep_eq]

/-- Where a keyword starts, the search ends after its two letters. -/
theorem splitAs?_of_marks {previous : Option Char} {depth : Nat} {glyph : Glyph}
    {rest : List Glyph} (here : Marks previous depth [] glyph rest) :
    ∃ second others, rest = second :: others ∧ glyph.char.toLower = 'a' ∧
      second.char.toLower = 's' ∧
      splitAs? previous depth (glyph :: rest) =
        some ([glyph.char, second.char], ofGlyphs others) := by
  obtain ⟨a, b, tail, shape, isA, isS, _⟩ := eq_cons_of_keywordAt here.2.2
  cases rest with
  | nil => simp [ofGlyphs] at shape
  | cons second others =>
      have chars : glyph.char = a ∧ second.char = b ∧ ofGlyphs others = tail := by
        simpa [ofGlyphs] using shape
      obtain ⟨rfl, rfl, rfl⟩ := chars
      refine ⟨second, others, rfl, isA, isS, ?_⟩
      rw [splitAs?, if_pos (marks_nil_iff.mp here)]
      rfl

/-- **The body keyword among glyphs.** A text is split after the first keyword at top level outside
parentheses, and it is not split when there is none. -/
theorem splitAs?_cases (previous : Option Char) (depth : Nat) (glyphs : List Glyph) :
    (splitAs? previous depth glyphs = none ∧ Unmarked previous depth glyphs []) ∨
      ∃ passed first second rest, glyphs = passed ++ first :: second :: rest ∧
        first.char.toLower = 'a' ∧ second.char.toLower = 's' ∧
        Marks previous depth passed first (second :: rest) ∧
        Unmarked previous depth passed (first :: second :: rest) ∧
        splitAs? previous depth glyphs =
          some (ofGlyphs (passed ++ [first, second]), ofGlyphs rest) := by
  induction glyphs generalizing previous depth with
  | nil => exact Or.inl ⟨rfl, unmarked_nil⟩
  | cons glyph rest ih =>
      by_cases here : Marks previous depth [] glyph rest
      · obtain ⟨second, others, rfl, isA, isS, found⟩ := splitAs?_of_marks here
        exact Or.inr ⟨[], glyph, second, others, rfl, isA, isS, here, unmarked_nil, found⟩
      · rw [splitAs?_of_not_marks here]
        rcases ih (some glyph.char) (Glyph.depthStep depth glyph) with ⟨missed, none⟩ |
          ⟨passed, first, second, others, rfl, isA, isS, marks, none, found⟩
        · exact Or.inl ⟨by rw [missed]; rfl, unmarked_cons.mpr ⟨by simpa using here, none⟩⟩
        · refine Or.inr ⟨glyph :: passed, first, second, others, rfl, isA, isS,
            marks_cons.mpr marks, unmarked_cons.mpr ⟨here, none⟩, ?_⟩
          rw [found]
          rfl

/-! ### The first keyword among byte offsets -/

section Bytes

variable {text base rest : Text} {start cut : Nat}

/-- The depth at an offset is counted along the glyphs before it. -/
theorem depthAt_eq (left : text.dropBytes start = (cut, rest)) (whole : text = base ++ rest)
    (size : base.byteLength = start + cut) {passed others : List Glyph}
    (split : rest.scan = passed ++ others) :
    text.depthAt start (base ++ ofGlyphs passed).byteLength =
      passed.foldl Glyph.depthStep 0 := by
  have cutNothing : ∀ offset ∈ List.range' start cut, text.charAt? offset = none := by
    intro offset inside
    obtain ⟨lower, upper⟩ := List.mem_range'_1.mp inside
    rw [charAt?, splitAtByte?_of_cut left lower upper]
  have before : ∀ offset ∈ List.range' start cut,
      decide (offset < base.byteLength + (ofGlyphs passed).byteLength) = true := by
    intro offset member
    have inside := List.mem_range'_1.mp member
    rw [decide_eq_true_eq]
    omega
  have parts : text = base ++ (ofGlyphs passed ++ ofGlyphs others) := by
    rw [whole, ← ofGlyphs_append, ← split, ofGlyphs_scan]
  rw [depthAt, topLevelPositions, left, byteLength_append]
  simp only [← size, split]
  rw [List.filter_append, List.filter_eq_self.mpr before, Glyph.filter_topLevelFrom,
    List.foldl_append, foldl_depthStep_of_charAt?_eq_none cutNothing, parts]
  exact Glyph.foldl_topLevelFrom 0 base (ofGlyphs others) passed

/-- The keyword of a body stands at an offset when it starts at the glyph there. -/
theorem isBodyKeyword_iff (left : text.dropBytes start = (cut, rest)) (whole : text = base ++ rest)
    (size : base.byteLength = start + cut) {place : Nat} :
    text.IsBodyKeyword start place ↔
      ∃ passed glyph others, rest.scan = passed ++ glyph :: others ∧
        place = (base ++ ofGlyphs passed).byteLength ∧
        Marks base.getLast? 0 passed glyph others := by
  have reads {passed others : List Glyph} {glyph : Glyph}
      (split : rest.scan = passed ++ glyph :: others) :
      text.isKeywordAt (base ++ ofGlyphs passed).byteLength ['A', 'S'] =
        keywordAt ((ofGlyphs passed).getLast?.or base.getLast?) (ofGlyphs (glyph :: others))
          ['A', 'S'] := by
    have parts : text = base ++ ofGlyphs passed ++ ofGlyphs (glyph :: others) := by
      rw [whole, List.append_assoc, ← ofGlyphs_append, ← split, ofGlyphs_scan]
    rw [isKeywordAt, parts, splitAtByte?_append]
    simp only [List.getLast?_append]
  have positions : text.topLevelPositions start =
      List.range' start cut ++ Glyph.topLevelFrom base.byteLength rest.scan := by
    rw [topLevelPositions, left, size]
  constructor
  · rintro ⟨member, depth, keyword⟩
    rw [positions, List.mem_append] at member
    rcases member with here | later
    · obtain ⟨lower, upper⟩ := List.mem_range'_1.mp here
      rw [isKeywordAt, splitAtByte?_of_cut left lower upper] at keyword
      cases keyword
    · have stands : ∃ c, text.charAt? place = some c := by
        unfold isKeywordAt at keyword
        split at keyword
        case h_1 before after split =>
          obtain ⟨a, b, tail, rfl, _⟩ := eq_cons_of_keywordAt keyword
          exact ⟨a, by rw [charAt?, split]; rfl⟩
        case h_2 => cases keyword
      obtain ⟨c, stands⟩ := stands
      rw [whole, ← ofGlyphs_scan rest] at stands
      obtain ⟨passed, glyph, others, split, topLevel, rfl⟩ :=
        Glyph.exists_of_mem_topLevelFrom later stands
      rw [reads split] at keyword
      rw [depthAt_eq left whole size split] at depth
      exact ⟨passed, glyph, others, split, rfl, topLevel, depth, keyword⟩
  · rintro ⟨passed, glyph, others, split, rfl, topLevel, depth, keyword⟩
    refine ⟨?_, by rw [depthAt_eq left whole size split, depth], by rw [reads split, keyword]⟩
    rw [positions, split, Glyph.topLevelFrom_append, ← byteLength_append, Glyph.topLevelFrom,
      if_pos topLevel, Glyph.range'_utf8Size]
    simp

/-- No keyword is found where there is none. -/
theorem not_isBodyKeyword_of_splitAs? (left : text.dropBytes start = (cut, rest))
    (whole : text = base ++ rest) (size : base.byteLength = start + cut)
    (missed : splitAs? base.getLast? 0 rest.scan = none) (place : Nat) :
    ¬ text.IsBodyKeyword start place := by
  intro keyword
  obtain ⟨passed, glyph, others, split, rfl, marks⟩ :=
    (isBodyKeyword_iff left whole size).mp keyword
  rcases splitAs?_cases base.getLast? 0 rest.scan with
    ⟨_, none⟩ | ⟨_, _, _, _, _, _, _, _, _, found⟩
  · exact none passed glyph others split (by simpa using marks)
  · rw [missed] at found
    cases found

/-- **The keyword of a body by byte offsets.** The text is split after the first keyword at top
level outside parentheses. -/
theorem isFirstBodyKeyword_of_splitAs? (left : text.dropBytes start = (cut, rest))
    (whole : text = base ++ rest) (size : base.byteLength = start + cut) {before after : Text}
    (found : splitAs? base.getLast? 0 rest.scan = some (before, after)) :
    ∃ place, text.IsFirstBodyKeyword start place ∧ place + 2 = (base ++ before).byteLength := by
  rcases splitAs?_cases base.getLast? 0 rest.scan with
    ⟨missed, _⟩ | ⟨passed, first, second, others, split, isA, isS, marks, none, read⟩
  · rw [missed] at found
    cases found
  · rw [read] at found
    obtain ⟨rfl, rfl⟩ := Prod.mk.inj (Option.some.inj found)
    refine ⟨(base ++ ofGlyphs passed).byteLength, ⟨?_, fun earlier keyword => ?_⟩, ?_⟩
    · exact (isBodyKeyword_iff left whole size).mpr
        ⟨passed, first, second :: others, split, rfl, marks⟩
    · obtain ⟨front, glyph, tail, splitToo, rfl, marksToo⟩ :=
        (isBodyKeyword_iff left whole size).mp keyword
      -- An earlier keyword would stand among the glyphs that were passed over.
      rcases List.append_eq_append_iff.mp (split.symm.trans splitToo) with
        ⟨more, rfl, _⟩ | ⟨more, rfl, shape⟩
      · simp only [ofGlyphs_append, byteLength_append]
        omega
      · cases more with
        | nil => simp
        | cons other more =>
            obtain ⟨rfl, rfl⟩ := List.cons.inj shape
            exact absurd marksToo (none front glyph more rfl)
    · have letters : (ofGlyphs [first, second]).byteLength = 2 := by
        simp [ofGlyphs, utf8Size_of_toLower (Or.inl isA), utf8Size_of_toLower (Or.inr isS)]
      rw [ofGlyphs_append, ← List.append_assoc, byteLength_append _ (ofGlyphs [first, second]),
        letters]

end Bytes

end Text

end RoutineScripts
