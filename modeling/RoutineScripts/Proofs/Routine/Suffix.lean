import RoutineScripts.Proofs.Lexical.Balance
import RoutineScripts.Proofs.Routine.Coherence
import RoutineScripts.Proofs.Routine.Normalization
import RoutineScripts.Proofs.Routine.Semicolon

/-!
# Text after a definition

A definition that ends in a semicolon is read alike whatever text follows. Every part up to the body
is found by a scan that goes no further than a character at top level, and the readers of the body
literal do not look past the semicolon (`Literal.locate?_congr`).

Only the search for a comment statement looks through all of the text. It disregards literals and
comments, so the statement that it finds may open in the definition, which `Remark.Spares` excludes.
The definition reaches up to the statement that is found (`Script.ofText?_append_of_spares`), so
what stands before it is read for options.

The main statement is `Definition.ofText?_append`. It needs both of its conditions, as
`Definition.ofText?_append_changes` shows.
-/

namespace RoutineScripts

open Text

namespace Text

/-- What follows a text does not make it start with another character. -/
theorem head?_append_stop_ne {front : Text} {c z : Char} (differs : z ≠ c)
    (bare : front.head? ≠ some c) (back : Text) : (front ++ z :: back).head? ≠ some c := by
  cases front with
  | nil => simpa using differs
  | cons d front => exact bare

/-- A string that ends in a text ends there whatever follows the next character. -/
theorem splitQuoted?_congr {front back content after : Text} {z : Char}
    (found : splitQuoted? (front ++ z :: back) = some (content, after ++ z :: back))
    (other : Text) : splitQuoted? (front ++ z :: other) = some (content, after ++ z :: other) := by
  obtain ⟨split, doubled, single⟩ := splitQuoted?_eq_some_iff.mp found
  rw [← List.cons_append, ← List.append_assoc] at split
  obtain rfl := List.append_cancel_right split
  refine splitQuoted?_eq_some_iff.mpr ⟨by simp, doubled, ?_⟩
  cases after <;> exact single

end Text

/-- Comments after a top-level semicolon are masked on their own. -/
theorem Text.exists_maskComments {front : Text} (settles : Settles front [';']) :
    ∃ masked, ∀ back : Text,
      (front ++ ';' :: back).maskComments = masked ++ ';' :: back.maskComments := by
  refine ⟨(glyphs front [';']).flatMap maskGlyph, fun back => ?_⟩
  obtain ⟨again, same⟩ := settles.congr (by decide) back
  rw [maskComments_eq, again.scan_append, same, scan_cons_of_plain (by decide), List.flatMap_append,
    List.flatMap_cons, ← maskComments_eq]
  rfl

namespace Literal

/-- A character that the readers of body literals stop at: it is no part of what joins the two
strings of a literal, and it starts none. -/
structure Stops (z : Char) : Prop where
  visible : isAsciiBlank z = false := by decide
  notComma : z ≠ ',' := by decide
  notQuote : z ≠ '\'' := by decide

/-- The readers of body literals stop at a semicolon. -/
theorem stops_semicolon : Stops ';' := {}

variable {z : Char}

/-- A link symbol that is read before a stop is read there whatever follows. -/
theorem readLink?_congr (stops : Stops z) {front back after : Text}
    {link : Option (Text × Text)}
    (found : readLink? (front ++ z :: back) = some (link, after ++ z :: back)) (other : Text) :
    readLink? (front ++ z :: other) = some (link, after ++ z :: other) := by
  have visible := stops.visible
  have alone (none : ∀ tail, readLink? (front ++ z :: tail) =
      some (Option.none, front ++ z :: tail)) :
      readLink? (front ++ z :: other) = some (link, after ++ z :: other) := by
    rw [none back] at found
    obtain ⟨rfl, same⟩ := Prod.mk.inj (Option.some.inj found)
    rw [none other, List.append_cancel_right same]
  by_cases comma : (front.dropWhile isAsciiBlank).head? = some ','
  · obtain ⟨rest, shape⟩ := List.head?_eq_some_iff.mp comma
    have shapeToo (tail : Text) :
        (front ++ z :: tail).dropWhile isAsciiBlank = ',' :: (rest ++ z :: tail) := by
      rw [dropWhile_append_cons visible, shape, List.cons_append]
    by_cases quote : (rest.dropWhile isAsciiBlank).head? = some '\''
    · obtain ⟨opened, inner⟩ := List.head?_eq_some_iff.mp quote
      have innerToo (tail : Text) :
          (rest ++ z :: tail).dropWhile isAsciiBlank = '\'' :: (opened ++ z :: tail) := by
        rw [dropWhile_append_cons visible, inner, List.cons_append]
      rw [readLink?_of_quote (shapeToo _) (innerToo _), takeWhile_append_cons visible,
        takeWhile_append_cons visible] at found ⊢
      simp only [Option.map_eq_some_iff, Prod.exists, Prod.mk.injEq] at found
      obtain ⟨symbol, _, closed, rfl, rfl⟩ := found
      rw [splitQuoted?_congr closed other]
      rfl
    · refine alone fun tail => readLink?_of_comma (shapeToo tail) ?_
      rw [dropWhile_append_cons visible]
      exact head?_append_stop_ne stops.notQuote quote tail
  · refine alone fun tail => readLink?_of_bare ?_
    rw [dropWhile_append_cons visible]
    exact head?_append_stop_ne stops.notComma comma tail

/-- A literal that is read before a stop is read there whatever follows. -/
theorem read?_congr (stops : Stops z) {front back after : Text} {literal : Literal}
    (found : read? (front ++ z :: back) = some (literal, after ++ z :: back)) (other : Text) :
    read? (front ++ z :: other) = some (literal, after ++ z :: other) := by
  cases literal with
  | dollar tag content =>
      obtain ⟨isTag, split, first⟩ := read?_eq_dollar_iff.mp found
      rw [← List.append_assoc] at split
      obtain rfl := List.append_cancel_right split
      exact read?_eq_dollar_iff.mpr ⟨isTag, by simp, first⟩
  | quoted content link =>
      have split := eq_append_of_read? found
      rw [← List.append_assoc] at split
      obtain rfl := List.append_cancel_right split
      have shape (tail : Text) : (quoted content link).written ++ after ++ z :: tail =
          '\'' :: (content ++ '\'' :: (linkText link ++ after) ++ z :: tail) := by
        simp [written, quote]
      rw [shape, read?_quote, Option.bind_eq_some_iff] at found ⊢
      obtain ⟨⟨inner, rest⟩, closed, linked⟩ := found
      simp only [Option.map_eq_some_iff, Prod.exists, Prod.mk.injEq, quoted.injEq] at linked
      obtain ⟨link, _, linked, ⟨rfl, rfl⟩, rfl⟩ := linked
      obtain rfl : rest = linkText link ++ after ++ z :: back := by
        have whole := eq_append_of_splitQuoted? closed
        rw [List.append_assoc, List.cons_append] at whole
        exact (List.cons.inj (List.append_cancel_left whole)).2.symm
      refine ⟨_, splitQuoted?_congr closed other, ?_⟩
      simp only [readLink?_congr stops linked other, Option.map_some]

/-- A body literal that is found before a stop is found there whatever follows. -/
theorem locate?_congr (stops : Stops z) {previous : Option Char}
    {front back leading after : Text} {literal : Literal}
    (found : locate? previous (front ++ z :: back) =
      some (leading, literal, after ++ z :: back)) (other : Text) :
    locate? previous (front ++ z :: other) = some (leading, literal, after ++ z :: other) := by
  obtain ⟨words, rest, keyword, rfl, read⟩ := locate?_eq_some_iff.mp found
  have visible := stops.visible
  -- The stop is past the keyword.
  obtain ⟨inner, rfl⟩ : ∃ inner, rest = inner ++ z :: back := by
    refine ⟨rest.takeWhile isAsciiBlank ++ literal.written ++ after, ?_⟩
    rw [List.append_assoc, List.append_assoc, ← eq_append_of_read? read,
      List.takeWhile_append_dropWhile]
  have split := eq_append_of_splitAs? keyword
  rw [ofGlyphs_scan, ← List.append_assoc] at split
  obtain rfl := List.append_cancel_right split
  rw [dropWhile_append_cons visible] at read
  have heads : (inner ++ z :: other).head? = (inner ++ z :: back).head? := by
    cases inner <;> rfl
  refine locate?_eq_some_iff.mpr ⟨words, inner ++ z :: other, ?_, ?_, ?_⟩
  · rw [List.append_assoc]
    exact (settles_of_splitAs? keyword (by simp) _ heads).2
  · rw [takeWhile_append_cons visible, takeWhile_append_cons visible]
  · rw [dropWhile_append_cons visible]
    exact read?_congr stops read other

end Literal

namespace Remark

/-- A comment statement that is found in `front ++ back` starts after `front`. -/
def Spares (front back : Text) : Prop :=
  ∀ found ∈ find? (front ++ back), front <+: found.1

instance (front back : Text) : Decidable (Spares front back) :=
  inferInstanceAs (Decidable (∀ found ∈ find? (front ++ back), front <+: found.1))

end Remark

namespace Script

/-- The text between the header and a remark. -/
def statement (script : Script) : Text :=
  script.head ++ script.body.written ++ script.trailing

/-- A script is the text before it, its header, its statement and the rest. -/
theorem text_eq_statement (script : Script) :
    script.text = script.before ++ script.header.written ++ script.statement ++
      ((script.remark.map Remark.written).getD [] ++ script.after) := by
  simp [text, prologue_eq, statement, epilogue]

/-- The text of a script ends in the semicolon of its definition. -/
structure EndsText (script : Script) : Prop where
  remark : script.remark = none
  after : script.after = []
  semicolon : script.statement.splitStatement? = some (script.statement, [])

instance (script : Script) : Decidable script.EndsText :=
  decidable_of_iff (script.remark = none ∧ script.after = [] ∧
      script.statement.splitStatement? = some (script.statement, []))
    ⟨fun ⟨remark, after, semicolon⟩ => ⟨remark, after, semicolon⟩,
      fun ⟨remark, after, semicolon⟩ => ⟨remark, after, semicolon⟩⟩

/-- The semicolon that ends a definition stands after the body. -/
theorem exists_trailing {text : Text} {script : Script}
    (semicolon : script.statement.splitStatement? = some (script.statement, []))
    (found : ofText? text = some script) :
    ∃ trail, script.trailing = trail ++ [';'] ∧
      splitTopLevel? ';' script.statement =
        some (script.head ++ script.body.written ++ trail, []) := by
  simp only [splitStatement?, Option.map_eq_some_iff, Prod.exists, Prod.mk.injEq] at semicolon
  obtain ⟨front, rest, split, shape, rfl⟩ := semicolon
  obtain ⟨trail, trails, rfl⟩ := (laid_of_ofText? found).fits.exists_trailing shape.symm
  exact ⟨trail, trails, split⟩

/-- **Scripts with another end.** The header, the name and the arguments of a script are read alike
whatever stands after the argument list. -/
theorem ofText?_listed {text listed leading trailing after : Text} {script : Script}
    {remark : Option Remark} {body : Literal} (found : ofText? text = some script) (more : Text)
    (cut : cutStatement
        (script.name ++ '(' :: (script.arguments ++ ')' :: (listed ++ more))) =
      (script.name ++ '(' :: (script.arguments ++ ')' :: listed), remark, after))
    (located : Literal.locate? (some ')') listed = some (leading, body, trailing)) :
    ofText? (script.before ++ script.header.written ++
        (script.name ++ '(' :: (script.arguments ++ ')' :: (listed ++ more)))) =
      some { script with leading, body, trailing, remark, after } := by
  obtain ⟨tail, statement, named, _, headed, cutFirst, opened, closed, _⟩ :=
    ofText?_eq_some_iff.mp found
  have named_eq := eq_append_of_splitTopLevel? opened
  have headedToo : Header.find? (script.before ++ script.header.written ++ script.name ++
      '(' :: (script.arguments ++ ')' :: (listed ++ more))) =
        some (script.before, script.header,
          script.name ++ '(' :: (script.arguments ++ ')' :: (listed ++ more))) := by
    have text_eq := Header.eq_append_of_find? headed
    rw [eq_append_of_cutStatement cutFirst, named_eq] at text_eq headed
    rw [text_eq] at headed
    exact Header.find?_congr (by simpa using headed) _
  refine ofText?_eq_some_iff.mpr
    ⟨_, _, script.arguments ++ ')' :: listed, listed, ?_, cut, ?_, ?_, located⟩
  · simpa using headedToo
  · exact splitTopLevel?_congr inert_open (named_eq ▸ opened) _
  · have closed_eq := eq_append_of_splitParens? closed
    exact (settles_of_splitParens? (closed_eq ▸ closed)).2 _

/-- A definition that ends in a semicolon is read alike when it is cut off later. What stands
between its semicolon and the cut goes into the text after its body. -/
theorem ofText?_of_cut {text more between after : Text} {script : Script} {remark : Option Remark}
    (found : ofText? text = some script)
    (semicolon : script.statement.splitStatement? = some (script.statement, []))
    (cut : cutStatement (script.statement ++ more) =
      (script.statement ++ between, remark, after)) :
    ofText? (script.before ++ script.header.written ++ (script.statement ++ more)) =
      some { script with trailing := script.trailing ++ between, remark, after } := by
  obtain ⟨trail, trails, _⟩ := exists_trailing semicolon found
  obtain ⟨_, _, _, listed, _, _, _, _, located⟩ := ofText?_eq_some_iff.mp found
  have listed_eq := Literal.eq_append_of_locate? located
  have shape : script.statement = script.name ++ '(' :: (script.arguments ++ ')' :: listed) := by
    rw [listed_eq]
    simp [statement, head]
  have locatedToo : Literal.locate? (some ')') (listed ++ between) =
      some (script.leading, script.body, script.trailing ++ between) := by
    rw [trails, ← List.append_assoc] at listed_eq
    rw [listed_eq, trails] at located
    rw [listed_eq, List.append_assoc, List.singleton_append]
    simpa [trails] using Literal.locate?_congr Literal.stops_semicolon located between
  have rest := eq_append_of_cutStatement cut
  simp only [List.append_assoc, List.append_cancel_left_eq] at rest
  have whole := ofText?_listed found ((remark.map Remark.written).getD [] ++ after)
    (by simpa [shape, rest] using cut) locatedToo
  rw [shape, rest]
  simpa using whole

/-- Where no remark is found that starts in a statement, the statement is cut at its end or past
it. -/
theorem cutStatement_of_spares {statement front suffix : Text}
    (ends : splitTopLevel? ';' statement = some (front, []))
    (spares : Remark.Spares statement suffix) :
    ∃ between remark after,
      cutStatement (statement ++ suffix) = (statement ++ between, remark, after) ∧
        (remark = none → between = []) := by
  rw [cutStatement]
  cases found : Remark.find? (statement ++ suffix) with
  | some parts =>
      obtain ⟨between, whole⟩ := spares parts found
      exact ⟨between, some parts.2.1, parts.2.2, by rw [whole], by simp⟩
  | none =>
      have whole : statement = front ++ [';'] := eq_append_of_splitTopLevel? ends
      refine ⟨[], none, suffix, ?_, fun _ => rfl⟩
      rw [whole, List.append_assoc, List.singleton_append, splitStatement?,
        splitTopLevel?_congr inert_semicolon ends suffix]
      simp

/-- **Scripts that go on.** More text after a definition goes into the text after its body, into a
remark and into the text after that, unless a remark is found that starts in the definition. -/
theorem ofText?_append_of_spares {text suffix : Text} {script : Script}
    (found : ofText? text = some script) (ends : script.EndsText)
    (spares : Remark.Spares script.statement suffix) :
    ∃ between remark after,
      ofText? (text ++ suffix) =
        some { script with trailing := script.trailing ++ between, remark, after } ∧
      suffix = between ++ (remark.map Remark.written).getD [] ++ after ∧
      (remark = none → between = []) := by
  obtain ⟨trail, trails, semicolon⟩ := exists_trailing ends.semicolon found
  obtain ⟨between, remark, after, cut, alone⟩ := cutStatement_of_spares semicolon spares
  have rest := eq_append_of_cutStatement cut
  simp only [List.append_assoc, List.append_cancel_left_eq] at rest
  refine ⟨between, remark, after, ?_, by simpa using rest, alone⟩
  have text_eq : text = script.before ++ script.header.written ++ script.statement := by
    rw [← text_of_ofText? found, text_eq_statement, ends.remark, ends.after]
    simp
  rw [text_eq, List.append_assoc]
  exact ofText?_of_cut found ends.semicolon cut

/-- What stands before the body leaves the scan in plain text, and so does the body. -/
theorem settles_of_ofText? {text : Text} {script : Script} (found : ofText? text = some script) :
    Settles script.leading (script.body.written ++ script.trailing) ∧
      Settles script.head (script.body.written ++ script.trailing) ∧
      Settles script.body.written script.trailing := by
  obtain ⟨tail, statement, named, listed, _, _, opened, closed, located⟩ :=
    ofText?_eq_some_iff.mp found
  obtain ⟨_, name, _⟩ := (splitTopLevel?_eq_some_iff inert_open).mp opened
  obtain ⟨arguments, _⟩ := settles_of_splitParens? closed
  obtain ⟨leading, fits⟩ := Literal.settles_of_locate? located
  rw [eq_append_of_splitParens? closed] at name
  rw [Literal.eq_append_of_locate? located, List.append_assoc] at name arguments
  exact ⟨leading, settles_head name arguments leading, fits.settles⟩

/-- The semicolon that ends a definition is at top level among its options. -/
theorem exists_options {text : Text} {script : Script}
    (semicolon : script.statement.splitStatement? = some (script.statement, []))
    (found : ofText? text = some script) :
    ∃ options, script.optionText = options ++ [';'] ∧ Settles options [';'] := by
  obtain ⟨trail, trails, semicolon⟩ := exists_trailing semicolon found
  obtain ⟨leading, head, body⟩ := settles_of_ofText? found
  obtain ⟨_, whole, _⟩ := (splitTopLevel?_eq_some_iff inert_semicolon).mp semicolon
  rw [trails] at head body leading
  have last : Settles trail [';'] := (head.append body).of_append whole
  have space : Settles [' '] (trail ++ [';']) := settles_of_plain (by simp) _
  refine ⟨script.leading ++ ([' '] ++ trail), by simp [optionText, trails], ?_⟩
  exact (leading.detached detached_space _).1.append (space.append last)

/-- White space and comments after a definition declare nothing. -/
theorem ofText_optionText {text between : Text} {script : Script}
    (semicolon : script.statement.splitStatement? = some (script.statement, []))
    (found : ofText? text = some script)
    (blank : ∀ c ∈ between.maskComments, isBlank c = true) :
    Options.ofText (script.optionText ++ between) = Options.ofText script.optionText := by
  obtain ⟨options, shape, settles⟩ := exists_options semicolon found
  obtain ⟨masked, masks⟩ := exists_maskComments settles
  rw [shape, List.append_assoc]
  exact Options.ofText_of_blank blank (masks []) (masks between)

end Script

/-- A routine has attributes of its own kind. -/
theorem Options.kind_attributes (options : Options) (kind : Kind) :
    (options.attributes kind).kind = kind := by
  cases kind <;> rfl

namespace Definition

/-- What a definition keeps when more text follows it. `between` is what the text adds to the
options, in front of a remark. -/
structure Continues (extended definition : Definition) (between : Text) : Prop where
  kind : extended.kind = definition.kind
  name : extended.name = definition.name
  arguments : extended.arguments = definition.arguments
  before : extended.before = definition.before
  body : extended.script.body = definition.script.body
  bodySpan : extended.script.bodySpan = definition.script.bodySpan
  optionText : extended.script.optionText = definition.script.optionText ++ between

/-- Two definitions declare the same options. -/
structure SameOptions (first second : Definition) : Prop where
  returns : first.returns = second.returns
  language : first.language = second.language
  securityDefiner : first.securityDefiner = second.securityDefiner
  attributes : first.attributes = second.attributes

variable {text suffix : Text} {definition : Definition}

/-- **Text after a definition.** When the text of a definition ends in its semicolon and more text
follows, in which no comment statement is found that starts in the definition, the whole text has a
definition with the same head and the same body. Its options are read from the old text and from
what stands in front of the comment statement, so they are the same when that is white space and
comments. -/
theorem ofText?_append (parsed : ofText? text = some definition)
    (ends : definition.script.EndsText)
    (spares : Remark.Spares definition.script.statement suffix) :
    ∃ extended between, ofText? (text ++ suffix) = some extended ∧
      suffix = between ++ (extended.script.remark.map Remark.written).getD []
        ++ extended.script.after ∧
      (extended.script.remark = none → between = []) ∧
      extended.Continues definition between ∧
      ((∀ c ∈ between.maskComments, isBlank c = true) → extended.SameOptions definition) := by
  obtain ⟨script, found, rfl⟩ := Option.map_eq_some_iff.mp parsed
  obtain ⟨between, remark, after, foundToo, rest, alone⟩ :=
    Script.ofText?_append_of_spares found ends spares
  have optionText : script.leading ++ ' ' :: (script.trailing ++ between) =
      script.optionText ++ between := by simp [Script.optionText]
  refine ⟨ofScript { script with trailing := script.trailing ++ between, remark, after }, between,
    congrArg (Option.map ofScript) foundToo, rest, alone, ?_, fun blank => ?_⟩
  · exact ⟨(Options.kind_attributes _ _).trans (Options.kind_attributes _ _).symm, rfl, rfl, rfl,
      rfl, rfl, optionText⟩
  · have same : Options.ofText (script.leading ++ ' ' :: (script.trailing ++ between)) =
        Options.ofText script.optionText := by
      rw [optionText]
      exact Script.ofText_optionText ends.semicolon found blank
    exact ⟨congrArg Options.returns same, congrArg Options.language same,
      congrArg Options.securityDefiner same,
      congrArg (·.attributes script.header.kind) same⟩

/-- The options stay the same in front of a comment statement that only a comment keeps apart from
the definition. -/
theorem ofText?_append_constantOne :
    let suffix := " /* ; */ COMMENT ON FUNCTION f() IS 'one'; DROP TABLE t;".toList
    ofText? constantOne.text = some (ofScript constantOne) ∧
      ∃ extended, ofText? (constantOne.text ++ suffix) = some extended ∧
        extended.comment = some "one".toList ∧ extended.SameOptions (ofScript constantOne) := by
  intro suffix
  have parsed : ofText? constantOne.text = some (ofScript constantOne) := by decide +kernel
  have facts : (ofText? (constantOne.text ++ suffix)).map
      (fun definition => (definition.comment, definition.script.optionText)) =
        some (some "one".toList, constantOne.optionText ++ " /* ; */ ".toList) := by
    decide +kernel
  have ends : constantOne.EndsText := by decide +kernel
  have spares : Remark.Spares constantOne.statement suffix := by decide +kernel
  have blank : (maskComments " /* ; */ ".toList).all isBlank = true := by decide +kernel
  obtain ⟨extended, between, parsedToo, _, _, continues, same⟩ := ofText?_append parsed ends spares
  rw [parsedToo] at facts
  obtain ⟨comment, optionText⟩ := Prod.mk.inj (Option.some.inj facts)
  obtain rfl : between = " /* ; */ ".toList :=
    List.append_cancel_left (continues.optionText.symm.trans optionText)
  exact ⟨parsed, extended, parsedToo, comment, same (List.all_eq_true.mp blank)⟩

/-- **Text that changes the definition before it.** A comment statement that opens in the body takes
the definition away, and a statement in front of a comment statement sets an option. -/
theorem ofText?_append_changes :
    let opened := "CREATE FUNCTION f() AS $$ COMMENT ON FUNCTION f() $$;".toList
    let altered := " ALTER FUNCTION f() IMMUTABLE; COMMENT ON FUNCTION f() IS '';".toList
    (∃ definition, ofText? opened = some definition ∧ definition.script.EndsText ∧
      ofText? (opened ++ " IS '';".toList) = none) ∧
    ofText? constantOne.text = some (ofScript constantOne) ∧ constantOne.EndsText ∧
      ∃ extended, ofText? (constantOne.text ++ altered) = some extended ∧
        extended.attributes ≠ (ofScript constantOne).attributes := by
  intro opened altered
  have ends : (ofText? opened).any
      (fun definition => decide definition.script.EndsText) = true := by decide +kernel
  have changed : (ofText? (constantOne.text ++ altered)).any (fun extended =>
      decide (extended.attributes ≠ (ofScript constantOne).attributes)) = true := by
    decide +kernel
  obtain ⟨definition, parsed, isEnd⟩ := (Option.any_eq_true _ _).mp ends
  obtain ⟨extended, parsedToo, differs⟩ := (Option.any_eq_true _ _).mp changed
  exact ⟨⟨definition, parsed, of_decide_eq_true isEnd, by decide +kernel⟩, by decide +kernel,
    by decide +kernel, extended, parsedToo, of_decide_eq_true differs⟩

end Definition

end RoutineScripts
