import RoutineScripts.Lexical.Scan
import RoutineScripts.Routine.Attributes
import RoutineScripts.Text.WordCharacter

/-!
# Option clauses

The text around a body literal declares the options of a routine. Each clause is looked for on its
own in the whole of that text, with comments blanked out, so clauses may stand in any order and on
either side of the body. The first occurrence of a clause counts.

`Options.ofText` collects all clauses. Clauses with a value (`RETURNS`, `LANGUAGE`, `COST`, `ROWS`,
`PARALLEL`) are read from the text as written. Flags are looked for in its upper-case form with
white space collapsed.
-/

namespace RoutineScripts

/-- The options declared around a body literal. The type a routine returns is empty when none is
declared. -/
structure Options where
  returns : Text
  language : Language
  volatility : Volatility
  securityDefiner : Bool
  leakproof : Bool
  strict : Bool
  cost : Option Text
  rows : Option Text
  window : Bool
  parallel : Parallelism
  deriving DecidableEq, Repr

namespace Options

/-- What follows the first occurrence of a keyword as the start of a word and the white space
after it, as far as `value?` reads it. Occurrences where it reads nothing are passed over. -/
def clause? {α : Type} (word : String) (value? : Text → Option α) (segment : Text) : Option α :=
  (search (fun previous text =>
      if startsWord previous then
        match Recogniser.sequence [.keyword word, .blanks] text with
        | some (_, rest) => value? rest
        | none => none
      else
        none)
    none segment).map fun (_, value) => value

/-- The words that end the type after `RETURNS`. -/
def terminators : List String :=
  ["LANGUAGE", "IMMUTABLE", "STABLE", "VOLATILE", "STRICT", "SECURITY", "COST", "ROWS",
    "PARALLEL", "WINDOW", "CALLED", "LEAKPROOF", "NOT", "SET", "AS", "TRANSFORM", "__END__"]

/-- Whether one of the words that end a type stands at the front of a text as a whole word. -/
def terminatorAt (previous : Option Char) (text : Text) : Bool :=
  startsWord previous && terminators.any fun word =>
    match Recogniser.keyword word text with
    | some (_, rest) => endsWord rest
    | none => false

/-- The text up to the first word that ends a type, which is not looked for at the very front. -/
def untilTerminator : Text → Text
  | [] => []
  | c :: rest =>
      match search (fun previous text => if terminatorAt previous text then some () else none)
          (some c) rest with
      | some (passed, _) => c :: passed
      | none => c :: rest

/-- The type after `RETURNS`, up to the next option keyword. -/
def returnsIn (segment : Text) : Text :=
  match clause? "RETURNS" some segment with
  | some rest => Text.trim (untilTerminator rest)
  | none => []

/-- The name of a language: identifier characters, or anything between double quotes. -/
def languageName? (text : Text) : Option Text :=
  match text with
  | '"' :: rest =>
      match Recogniser.sequence [.run1 (· != '"'), .char '"'] rest with
      | some (quoted, _) => some quoted.dropLast
      | none => none
  | _ => (Recogniser.run1 isFoldedIdentifierChar text).map fun (name, _) => name

/-- The language a segment declares. -/
def languageIn (segment : Text) : Language :=
  Language.resolve (clause? "LANGUAGE" languageName? segment)

/-- Accepts digits, with a fraction if one follows. -/
def number : Recogniser :=
  .sequence [.run1 Char.isDigit, .optional (.sequence [.char '.', .run1 Char.isDigit])]

/-- The number that a segment declares after a keyword, as written. -/
def numberIn (word : String) (segment : Text) : Option Text :=
  clause? word (fun text => (number text).map fun (digits, _) => digits) segment

/-- One of the three words of a parallelism as a whole word, as written. -/
def parallelWord? (text : Text) : Option Text :=
  match Recogniser.orElse (.keyword "SAFE")
      (.orElse (.keyword "RESTRICTED") (.keyword "UNSAFE")) text with
  | some (word, rest) => if endsWord rest then some word else none
  | none => none

/-- The parallelism a segment declares. A word with a letter outside ASCII is found and counts as
the default. -/
def parallelIn (segment : Text) : Parallelism :=
  match clause? "PARALLEL" parallelWord? segment with
  | some word =>
      if word.asciiUpper = Parallelism.safe.text then .safe
      else if word.asciiUpper = Parallelism.restricted.text then .restricted
      else .serial
  | none => .serial

/-- The upper-case form of a character, as far as words can depend on it: where it is written with
ASCII letters, of which keywords are made, and where a word character has a form that is none. Any
other form outside ASCII is a word character exactly when the character is, and the character
stands for it. -/
def upperForm (c : Char) : Text :=
  match c with
  | 'ß' => ['S', 'S']
  | 'ı' => ['I']
  | 'ŉ' => ['ʼ', 'N']
  | 'ſ' => ['S']
  | 'ǰ' => ['J', '\u030C']
  | 'ẖ' => ['H', '\u0331']
  | 'ẗ' => ['T', '\u0308']
  | 'ẘ' => ['W', '\u030A']
  | 'ẙ' => ['Y', '\u030A']
  | 'ẚ' => ['A', 'ʾ']
  | 'ꟓ' => ['\uA7D2']
  | 'ꟕ' => ['\uA7D4']
  | 'ﬀ' => ['F', 'F']
  | 'ﬁ' => ['F', 'I']
  | 'ﬂ' => ['F', 'L']
  | 'ﬃ' => ['F', 'F', 'I']
  | 'ﬄ' => ['F', 'F', 'L']
  | 'ﬅ' => ['S', 'T']
  | 'ﬆ' => ['S', 'T']
  | c => [c.toUpper]

/-- The form of a segment in which flags are looked for: upper case, white space collapsed, and a
space at each end. -/
def flagText (segment : Text) : Text :=
  ' ' :: segment.collapse.flatMap upperForm ++ [' ']

/-- Whether a word occurs in a text as a whole word. -/
def hasWord (word : String) (text : Text) : Bool :=
  (search (fun previous rest =>
      if startsWord previous then
        match Text.afterLead? word.toList rest with
        | some after => if endsWord after then some () else none
        | none => none
      else
        none)
    none text).isSome

/-- Whether a phrase occurs in a text. -/
def hasPhrase (phrase : String) (text : Text) : Bool :=
  Text.occursIn phrase.toList text

/-- The volatility that flags declare. Of several, the strongest promise counts. -/
def volatilityIn (flags : Text) : Volatility :=
  if hasWord "IMMUTABLE" flags then .immutable
  else if hasWord "STABLE" flags then .stable
  else .volatile

/-- All options declared in a segment. -/
def ofText (segment : Text) : Options :=
  let masked := segment.maskComments
  let flags := flagText masked
  { returns := returnsIn masked
    language := languageIn masked
    volatility := volatilityIn flags
    securityDefiner := hasPhrase "SECURITY DEFINER" flags
    leakproof := hasWord "LEAKPROOF" flags && !hasPhrase "NOT LEAKPROOF" flags
    strict := hasWord "STRICT" flags
      || hasPhrase "RETURNS NULL ON NULL INPUT" flags
      || hasPhrase "CALLED ON NULL INPUT" flags
    cost := numberIn "COST" masked
    rows := numberIn "ROWS" masked
    window := hasWord "WINDOW" flags
    parallel := parallelIn masked }

/-- The attributes of a routine of a given kind with these options. -/
def attributes (options : Options) : Kind → Attributes
  | .function => .function
      { volatility := options.volatility
        leakproof := options.leakproof
        strict := options.strict
        cost := options.cost
        rows := options.rows
        window := options.window
        parallel := options.parallel }
  | .procedure => .procedure

end Options

end RoutineScripts
