import RoutineScripts.Text.Basic

/-!
# File patterns

A pattern selects file names: `?` stands for one character, `*` for any characters, `[…]` for one
of the listed characters or ranges and `[!…]` for any other one. Two stars stand for any
directories and must form a whole path component. A closing bracket directly after the opening one
is a listed character.

`Pattern.ofText` reads a pattern and reports the place of a fault, counted in characters.
`Pattern.accepts` tries each token once at each place of the name. Its laws say what the tokens
stand for: `accepts_nil`, `accepts_anySequence`, `accepts_anyDirectories`, `accepts_cons` and
`accepts_cons_nil`.
-/

namespace RoutineScripts

/-- A character or a range of characters between brackets. -/
inductive Specifier
  | single (char : Char)
  | range (first last : Char)
  deriving DecidableEq, Repr

/-- One part of a pattern. -/
inductive PatternToken
  | char (char : Char)
  | anyChar
  | anySequence
  | anyDirectories
  | oneOf (specifiers : List Specifier)
  | noneOf (specifiers : List Specifier)
  deriving DecidableEq, Repr

/-- What is wrong with a pattern. -/
inductive PatternFault
  | tooManyStars
  | brokenComponent
  | openBracket
  deriving DecidableEq, Repr

/-- A fault of a pattern and its place. -/
structure PatternError where
  position : Nat
  fault : PatternFault
  deriving DecidableEq, Repr

/-- A file pattern. -/
abbrev Pattern := List PatternToken

/-- The text of a fault. -/
def PatternFault.message : PatternFault → Text
  | tooManyStars => "wildcards are either regular `*` or recursive `**`".toList
  | brokenComponent => "recursive wildcards must form a single path component".toList
  | openBracket => "invalid range pattern".toList

/-- The text of an error. -/
def PatternError.message (error : PatternError) : Text :=
  "Pattern syntax error near position ".toList ++ Nat.toDigits 10 error.position
    ++ ": ".toList ++ error.fault.message

/-- Whether a character is listed. -/
def Specifier.accepts (c : Char) : Specifier → Bool
  | single listed => c == listed
  | range first last => first ≤ c && c ≤ last

/-- Whether a token that stands for one character stands for this one. -/
def PatternToken.acceptsChar (c : Char) : PatternToken → Bool
  | char expected => c == expected
  | anyChar => true
  | oneOf list => list.any (·.accepts c)
  | noneOf list => !list.any (·.accepts c)
  | anySequence => false
  | anyDirectories => false

namespace Pattern

/-- The characters and ranges that a list between brackets stands for. -/
def specifiers : Text → List Specifier
  | first :: '-' :: last :: rest => .range first last :: specifiers rest
  | c :: rest => .single c :: specifiers rest
  | [] => []

/-- Splits off a list that ends in a closing bracket. Its first character is listed, whatever it
is. -/
def splitList? : Text → Option (Text × Text)
  | [] => none
  | c :: rest =>
      match rest.dropWhile (· != ']') with
      | [] => none
      | _ :: after => some (c :: rest.takeWhile (· != ']'), after)

/-- Reads what follows an opening bracket. -/
def readBracket? (text : Text) : Option (PatternToken × Text) :=
  match text with
  | '!' :: rest => (splitList? rest).map fun (list, after) => (.noneOf (specifiers list), after)
  | _ => (splitList? text).map fun (list, after) => (.oneOf (specifiers list), after)

/-- Adds two stars to the tokens read so far, which are kept with the last one first. A second pair
directly after another is dropped, except right at the start. -/
def addDirectories (tokens : List PatternToken) : List PatternToken :=
  if 1 < tokens.length ∧ tokens.head? = some .anyDirectories then tokens
  else .anyDirectories :: tokens

/-- Reads a pair of stars at a position, given the character before it and the text after it. The
result is the text that is left, without a slash that ends the component. -/
def readDirectories (position : Nat) (previous : Option Char) (rest : Text) :
    Except PatternError Text :=
  if previous.all (· == '/') then
    match rest with
    | [] => .ok []
    | '/' :: after => .ok after
    | _ => .error ⟨position + 2, .brokenComponent⟩
  else
    .error ⟨position - 1, .brokenComponent⟩

/-- Reads a pattern from a position on. `previous` is the character before it, and `tokens` are
the tokens before it, the last one first. Each step reads at least one character, so as many steps
as there are characters suffice. -/
def readFrom : Nat → Nat → Option Char → List PatternToken → Text →
    Except PatternError (List PatternToken)
  | _, _, _, tokens, [] => .ok tokens.reverse
  | 0, _, _, tokens, _ => .ok tokens.reverse
  | steps + 1, position, previous, tokens, c :: rest =>
      if c = '?' then readFrom steps (position + 1) (some c) (.anyChar :: tokens) rest
      else if c = '*' then
        match rest.takeWhile (· == '*') with
        | [] => readFrom steps (position + 1) (some c) (.anySequence :: tokens) rest
        | [_] =>
            match readDirectories position previous (rest.drop 1) with
            | .error error => .error error
            | .ok after =>
                let read := rest.length + 1 - after.length
                let last := if read = 2 then '*' else '/'
                readFrom steps (position + read) (some last) (addDirectories tokens) after
        | _ => .error ⟨position + 2, .tooManyStars⟩
      else if c = '[' then
        match readBracket? rest with
        | none => .error ⟨position, .openBracket⟩
        | some (token, after) =>
            readFrom steps (position + 1 + (rest.length - after.length)) (some ']')
              (token :: tokens) after
      else
        readFrom steps (position + 1) (some c) (.char c :: tokens) rest

/-- Reads a pattern. -/
def ofText (text : Text) : Except PatternError Pattern :=
  readFrom text.length 0 none [] text

/-- The ends of a text, from the whole text to the empty one. -/
def tails : Text → List Text
  | [] => [[]]
  | c :: rest => (c :: rest) :: tails rest

/-- The ends of a text after a slash, and the empty end. -/
def tailsAfterSlash : Text → List Text
  | [] => [[]]
  | c :: rest => if c = '/' then rest :: tailsAfterSlash rest else tailsAfterSlash rest

/-- For each end of a list of verdicts, whether one of its verdicts holds. -/
def anyFrom : List Bool → List Bool
  | [] => []
  | verdict :: later =>
      let others := anyFrom later
      (verdict || others.headD false) :: others

/-- The verdicts for a token that stands for one character. -/
def afterChar (token : PatternToken) : Text → List Bool → List Bool
  | c :: name, _ :: later =>
      (token.acceptsChar c && later.headD false) :: afterChar token name later
  | _, _ => [false]

/-- For each end of a name, whether one of the verdicts holds that stand after a slash in it or at
the end of the name. -/
def anyAfterSlash : Text → List Bool → List Bool
  | c :: name, _ :: later =>
      let others := anyAfterSlash name later
      ((c == '/' && later.headD false) || others.headD false) :: others
  | _, later => later

/-- The verdicts of a pattern with a further token in front, from the verdicts of the pattern. -/
def extend (token : PatternToken) (name : Text) (later : List Bool) : List Bool :=
  match token with
  | .anySequence => anyFrom later
  | .anyDirectories => List.zipWith (· || ·) later (anyAfterSlash name later)
  | token => afterChar token name later

/-- For each end of a name, from the whole name to the empty end, whether a pattern matches it.
Each token is tried once at each end, so the work is the product of the two lengths. -/
def verdicts : Pattern → Text → List Bool
  | [], name => (tails name).map List.isEmpty
  | token :: rest, name => extend token name (verdicts rest name)

/-- Whether a pattern matches a whole name. -/
def accepts (pattern : Pattern) (name : Text) : Bool :=
  (verdicts pattern name).headD false

/-! ### What the tokens stand for -/

/-- Extending by a token gives a first verdict and goes on with the later ones. -/
theorem exists_extend_cons (token : PatternToken) (c : Char) (name : Text) (verdict : Bool)
    (later : List Bool) :
    ∃ first, extend token (c :: name) (verdict :: later) = first :: extend token name later := by
  cases token <;> simp [extend, anyFrom, afterChar, anyAfterSlash]

/-- The first of the verdicts is the one on the whole name. -/
theorem accepts_of_verdicts {pattern : Pattern} {name : Text} {verdict : Bool} {later : List Bool}
    (computed : verdicts pattern name = verdict :: later) : accepts pattern name = verdict := by
  rw [accepts, computed]
  rfl

/-- The empty name has one suffix, itself. -/
theorem verdicts_nil (pattern : Pattern) : verdicts pattern [] = [accepts pattern []] := by
  have single : ∃ verdict, verdicts pattern [] = [verdict] := by
    induction pattern with
    | nil => exact ⟨true, rfl⟩
    | cons token rest ih =>
        obtain ⟨verdict, computed⟩ := ih
        rw [verdicts, computed]
        cases token <;> exact ⟨_, rfl⟩
  obtain ⟨verdict, computed⟩ := single
  rw [computed, accepts_of_verdicts computed]

/-- Leaving out the first character of a name leaves out the first verdict. -/
theorem verdicts_cons (pattern : Pattern) (c : Char) (name : Text) :
    verdicts pattern (c :: name) = accepts pattern (c :: name) :: verdicts pattern name := by
  have longer : ∃ verdict, verdicts pattern (c :: name) = verdict :: verdicts pattern name := by
    induction pattern with
    | nil => exact ⟨false, rfl⟩
    | cons token rest ih =>
        obtain ⟨verdict, computed⟩ := ih
        rw [verdicts, computed]
        exact exists_extend_cons token c name verdict _
  obtain ⟨verdict, computed⟩ := longer
  rw [computed, accepts_of_verdicts computed]

/-- The verdicts are those for the ends of the name, in order. -/
theorem verdicts_eq_map (pattern : Pattern) (name : Text) :
    verdicts pattern name = (tails name).map (accepts pattern) := by
  induction name with
  | nil => exact verdicts_nil pattern
  | cons c name ih =>
      rw [verdicts_cons, ih]
      rfl

/-- The empty pattern matches the empty name. -/
theorem accepts_nil (name : Text) : accepts [] name = name.isEmpty := by
  cases name <;> rfl

/-- The first of the verdicts that look ahead says whether any suffix is accepted. -/
theorem headD_anyFrom (verdicts : List Bool) :
    (anyFrom verdicts).headD false = verdicts.any id := by
  induction verdicts with
  | nil => rfl
  | cons verdict later ih =>
      rw [anyFrom, List.any_cons, ← ih]
      rfl

/-- A star stands for any characters: the rest of the pattern matches some end of the name. -/
theorem accepts_anySequence (rest : Pattern) (name : Text) :
    accepts (.anySequence :: rest) name = (tails name).any (accepts rest) := by
  rw [accepts, verdicts, extend, headD_anyFrom, verdicts_eq_map, List.any_map]
  rfl

/-- The first of the verdicts that look past a slash says whether any such suffix is accepted. -/
theorem headD_anyAfterSlash (rest : Pattern) (name : Text) :
    (anyAfterSlash name (verdicts rest name)).headD false
      = (tailsAfterSlash name).any (accepts rest) := by
  induction name with
  | nil => simp [anyAfterSlash, tailsAfterSlash, verdicts_nil]
  | cons c name ih =>
      rw [verdicts_cons, anyAfterSlash, tailsAfterSlash, List.headD_cons, ih]
      by_cases slash : c = '/'
      · rw [if_pos slash, List.any_cons, accepts, slash]
        rfl
      · rw [if_neg slash, beq_false_of_ne slash, Bool.false_and, Bool.false_or]

/-- Two stars stand for any directories: the rest of the pattern matches the name itself, an end
of it after a slash, or nothing at all. -/
theorem accepts_anyDirectories (rest : Pattern) (name : Text) :
    accepts (.anyDirectories :: rest) name
      = (accepts rest name || (tailsAfterSlash name).any (accepts rest)) := by
  rw [← headD_anyAfterSlash, accepts, verdicts, extend]
  cases name with
  | nil =>
      rw [verdicts_nil]
      rfl
  | cons c name =>
      rw [verdicts_cons]
      rfl

/-- Any other token stands for the first character of the name. -/
theorem accepts_cons (token : PatternToken) (rest : Pattern) (c : Char)
    (name : Text) (sequence : token ≠ .anySequence) (directories : token ≠ .anyDirectories) :
    accepts (token :: rest) (c :: name) = (token.acceptsChar c && accepts rest name) := by
  have single : ∀ later, extend token (c :: name) later = afterChar token (c :: name) later := by
    intro later
    cases token with
    | anySequence => exact absurd rfl sequence
    | anyDirectories => exact absurd rfl directories
    | _ => rfl
  rw [accepts, verdicts, single, verdicts_cons, afterChar]
  rfl

/-- Any other token needs a character. -/
theorem accepts_cons_nil (token : PatternToken) (rest : Pattern)
    (sequence : token ≠ .anySequence) (directories : token ≠ .anyDirectories) :
    accepts (token :: rest) [] = false := by
  cases token with
  | anySequence => exact absurd rfl sequence
  | anyDirectories => exact absurd rfl directories
  | _ => rfl

end Pattern

end RoutineScripts
