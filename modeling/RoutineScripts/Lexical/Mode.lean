import RoutineScripts.Text.Recogniser

/-!
# Lexical modes

A script is read in one of six modes: plain text, two kinds of comment, and three kinds of quoted
span. `Mode.advance` is the transition from one character to the next. In plain text the openers
are tried in this order: `--`, `/*`, a dollar tag, `'`, `"`.

A block comment ends at the next `*/` and does not nest. A dollar span ends only at the very tag
that opened it. Every delimiter is ASCII, so a character of several bytes never opens or closes
anything.
-/

namespace RoutineScripts

/-- What a place of a script belongs to. A dollar-quoted span keeps its tag, `$` signs
included. -/
inductive Mode
  | normal
  | lineComment
  | blockComment
  | singleQuoted
  | doubleQuoted
  | dollarQuoted (tag : Text)
  deriving DecidableEq, Repr

/-- The result of one transition: the mode after it, and the number of characters that were taken
together as one delimiter or escape. Zero means that one character was taken on its own. -/
structure Step where
  mode : Mode
  skip : Nat
  deriving DecidableEq, Repr

/-- The dollar tag at the front of a text: `$`, identifier characters, `$`. -/
def dollarTag? : Text → Option Text
  | '$' :: rest =>
      match rest.dropWhile isIdentifierChar with
      | '$' :: _ => some ('$' :: (rest.takeWhile isIdentifierChar ++ ['$']))
      | _ => none
  | _ => none

/-- A dollar tag stands at the front of the text it was read from. -/
theorem exists_append_of_dollarTag? {text tag : Text} (found : dollarTag? text = some tag) :
    ∃ rest, text = tag ++ rest := by
  unfold dollarTag? at found
  split at found
  case h_1 opened =>
    split at found
    case h_1 rest closing =>
      cases found
      refine ⟨rest, ?_⟩
      rw [List.cons_append, List.append_assoc, List.singleton_append, ← closing,
        List.takeWhile_append_dropWhile]
    case h_2 => cases found
  case h_2 => cases found

namespace Mode

/-- Whether a mode is one of the two comment modes. -/
def isComment : Mode → Bool
  | lineComment | blockComment => true
  | _ => false

/-- The transition on the character `c`, followed by `rest`. -/
def advance (mode : Mode) (c : Char) (rest : Text) : Step :=
  match mode with
  | normal =>
      if c = '-' ∧ rest.head? = some '-' then ⟨lineComment, 2⟩
      else if c = '/' ∧ rest.head? = some '*' then ⟨blockComment, 2⟩
      else match dollarTag? (c :: rest) with
        | some tag => ⟨dollarQuoted tag, tag.length⟩
        | none =>
            if c = '\'' then ⟨singleQuoted, 0⟩
            else if c = '"' then ⟨doubleQuoted, 0⟩
            else ⟨normal, 0⟩
  | lineComment => if c = '\n' ∨ c = '\r' then ⟨normal, 0⟩ else ⟨lineComment, 0⟩
  | blockComment =>
      if c = '*' ∧ rest.head? = some '/' then ⟨normal, 2⟩ else ⟨blockComment, 0⟩
  | singleQuoted =>
      if c = '\'' then
        if rest.head? = some '\'' then ⟨singleQuoted, 2⟩ else ⟨normal, 0⟩
      else
        ⟨singleQuoted, 0⟩
  | doubleQuoted => if c = '"' then ⟨normal, 0⟩ else ⟨doubleQuoted, 0⟩
  | dollarQuoted tag =>
      if tag.isPrefixOf (c :: rest) then ⟨normal, tag.length⟩ else ⟨dollarQuoted tag, 0⟩

end Mode

end RoutineScripts
