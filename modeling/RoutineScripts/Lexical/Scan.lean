import RoutineScripts.Lexical.Mode

/-!
# Scanned texts

`Text.scan` runs the transitions of `Mode.advance` over a text and keeps, for each character, what
became of it. A *glyph* is a character with that record. All structural questions are asked of
glyphs: a parenthesis, a semicolon or a keyword counts only where its glyph is at top level, which
means that it was taken on its own and left the scanner in plain text. So the quote that closes a
literal is at top level and the one that opens it is not.
-/

namespace RoutineScripts

/-- How a character was taken: on its own, as the first of several taken together, or as a later
one of those. -/
inductive Role
  | single
  | lead (size : Nat)
  | later
  deriving DecidableEq, Repr

/-- A character with the transition it took part in. -/
structure Glyph where
  char : Char
  role : Role
  before : Mode
  after : Mode
  deriving DecidableEq, Repr

namespace Glyph

/-- Whether a glyph lies outside comments and quoted spans. -/
def isTopLevel (glyph : Glyph) : Bool :=
  glyph.role == .single && glyph.after == .normal

/-- Whether a glyph is the given character at top level. -/
def isTopLevelChar (target : Char) (glyph : Glyph) : Bool :=
  glyph.isTopLevel && glyph.char == target

/-- Whether a glyph belongs to a comment. The closing delimiter of a block comment belongs to it;
the line break after a line comment does not. -/
def isComment (glyph : Glyph) : Bool :=
  glyph.after.isComment || (glyph.before.isComment && glyph.role != .single)

/-- Whether a glyph starts a comment. -/
def opensComment (glyph : Glyph) : Bool :=
  glyph.after.isComment && !glyph.before.isComment && glyph.role != .later

/-- A glyph is a given character at top level only when it is that character. -/
theorem char_of_isTopLevelChar {target : Char} {glyph : Glyph}
    (found : glyph.isTopLevelChar target = true) : glyph.char = target := by
  simp only [isTopLevelChar, Bool.and_eq_true, beq_iff_eq] at found
  exact found.2

end Glyph

namespace Text

/-- The glyphs of a text. The scan is in `mode`, and the next `pending` characters still belong to
the transition into `mode` from `before`. -/
def scanFrom (before mode : Mode) : Nat → Text → List Glyph
  | _, [] => []
  | pending + 1, c :: rest => ⟨c, .later, before, mode⟩ :: scanFrom before mode pending rest
  | 0, c :: rest =>
      let step := mode.advance c rest
      let role := if step.skip = 0 then Role.single else Role.lead step.skip
      ⟨c, role, mode, step.mode⟩ :: scanFrom mode step.mode (step.skip - 1) rest

/-- The glyphs of a text read from its start in plain mode. -/
def scan (text : Text) : List Glyph :=
  scanFrom .normal .normal 0 text

/-- The characters of a list of glyphs. -/
def ofGlyphs (glyphs : List Glyph) : Text :=
  glyphs.map Glyph.char

/-- The scan keeps every character in its place. -/
theorem ofGlyphs_scanFrom (before mode : Mode) (pending : Nat) (text : Text) :
    ofGlyphs (scanFrom before mode pending text) = text := by
  induction text generalizing before mode pending with
  | nil => cases pending <;> rfl
  | cons c rest ih =>
      cases pending <;> simp only [scanFrom, ofGlyphs, List.map_cons] <;> congr 1 <;> exact ih ..

/-- The glyphs of a text spell the text. -/
@[simp]
theorem ofGlyphs_scan (text : Text) : ofGlyphs (scan text) = text :=
  ofGlyphs_scanFrom ..

/-- Splits a text at the first top-level occurrence of a character, which is left out. -/
def splitTopLevel? (target : Char) (text : Text) : Option (Text × Text) :=
  (search (fun _ glyphs =>
      match glyphs with
      | glyph :: rest => if glyph.isTopLevelChar target then some (ofGlyphs rest) else none
      | [] => none)
    none text.scan).map fun (passed, rest) => (ofGlyphs passed, rest)

/-- Splits a text at the top-level parenthesis that closes `depth + 1` open ones. The parenthesis
is left out. -/
def splitClosing? : Nat → List Glyph → Option (List Glyph × List Glyph)
  | _, [] => none
  | depth, glyph :: rest =>
      if glyph.isTopLevelChar ')' then
        match depth with
        | 0 => some ([], rest)
        | depth + 1 => (splitClosing? depth rest).map fun (inner, after) => (glyph :: inner, after)
      else
        (splitClosing? (if glyph.isTopLevelChar '(' then depth + 1 else depth) rest).map
          fun (inner, after) => (glyph :: inner, after)

/-- Given the text after an opening parenthesis, the text up to the one that matches it and the
text after that. -/
def splitParens? (text : Text) : Option (Text × Text) :=
  (splitClosing? 0 text.scan).map fun (inner, after) => (ofGlyphs inner, ofGlyphs after)

/-- Splits a text just past its first top-level semicolon. -/
def splitStatement? (text : Text) : Option (Text × Text) :=
  (splitTopLevel? ';' text).map fun (statement, after) => (statement ++ [';'], after)

/-- The parts of a split at a top-level character make up the text. -/
theorem eq_append_of_splitTopLevel? {target : Char} {text before after : Text}
    (found : splitTopLevel? target text = some (before, after)) :
    text = before ++ target :: after := by
  simp only [splitTopLevel?, Option.map_eq_some_iff, Prod.exists, Prod.mk.injEq] at found
  obtain ⟨passed, rest, result, rfl, rfl⟩ := found
  obtain ⟨glyphs, split, accepted⟩ := eq_append_of_search result
  cases glyphs with
  | nil => cases accepted
  | cons glyph others =>
      simp only at accepted
      split at accepted
      case isTrue matched =>
        cases accepted
        rw [← ofGlyphs_scan text, split, ← Glyph.char_of_isTopLevelChar matched]
        simp [ofGlyphs]
      case isFalse => cases accepted

/-- A group that closes is its content, the closing parenthesis and what follows. -/
theorem eq_append_of_splitClosing? {depth : Nat} {glyphs inner after : List Glyph}
    (found : splitClosing? depth glyphs = some (inner, after)) :
    ofGlyphs glyphs = ofGlyphs inner ++ ')' :: ofGlyphs after := by
  induction glyphs generalizing depth inner with
  | nil => cases depth <;> cases found
  | cons glyph rest ih =>
      simp only [splitClosing?] at found
      split at found
      case isTrue closing =>
        have char := Glyph.char_of_isTopLevelChar closing
        cases depth with
        | zero =>
            cases found
            simp [ofGlyphs, char]
        | succ depth =>
            simp only [Option.map_eq_some_iff, Prod.exists, Prod.mk.injEq] at found
            obtain ⟨deeper, tail, closed, rfl, rfl⟩ := found
            have split := ih closed
            simp only [ofGlyphs, List.map_cons, List.cons_append] at split ⊢
            rw [split]
      case isFalse =>
        simp only [Option.map_eq_some_iff, Prod.exists, Prod.mk.injEq] at found
        obtain ⟨deeper, tail, closed, rfl, rfl⟩ := found
        have split := ih closed
        simp only [ofGlyphs, List.map_cons, List.cons_append] at split ⊢
        rw [split]

/-- A text whose group closes is the content, the closing parenthesis and what follows. -/
theorem eq_append_of_splitParens? {text inner after : Text}
    (found : splitParens? text = some (inner, after)) : text = inner ++ ')' :: after := by
  simp only [splitParens?, Option.map_eq_some_iff, Prod.exists, Prod.mk.injEq] at found
  obtain ⟨glyphs, rest, closed, rfl, rfl⟩ := found
  rw [← eq_append_of_splitClosing? closed, ofGlyphs_scan]

/-- A statement and what follows it make up the text. -/
theorem eq_append_of_splitStatement? {text statement after : Text}
    (found : splitStatement? text = some (statement, after)) : text = statement ++ after := by
  simp only [splitStatement?, Option.map_eq_some_iff, Prod.exists, Prod.mk.injEq] at found
  obtain ⟨before, rest, split, rfl, rfl⟩ := found
  rw [eq_append_of_splitTopLevel? split, List.append_assoc]
  rfl

/-- Replaces every byte of every comment by a space, so that byte offsets stay as they are. -/
def maskComments (text : Text) : Text :=
  text.scan.flatMap fun glyph =>
    if glyph.isComment then List.replicate glyph.char.utf8Size ' ' else [glyph.char]

end Text

end RoutineScripts
