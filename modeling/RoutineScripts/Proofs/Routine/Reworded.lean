import RoutineScripts.Proofs.Lexical.Rewording
import RoutineScripts.Proofs.Routine.Spacing
import RoutineScripts.Proofs.Routine.Suffix

/-!
# Definitions with reworded comments

What the comments among the options of a definition hold has no part in what is defined. The search
for the body passes over them (`Glyph.Alike.locate?`), the statement ends at the same place
(`Script.cutStatement_reworded`), and the options are read from a text in which each byte of a
comment is a space (`Glyph.Alike.maskComments_eq`). A comment stands in front of the body or after
it (`Script.Holds`).

Only the search for a comment statement looks into comments. So the main statement,
`Definition.ofText?_reworded`, asks that none opens up to the end of the comment.
-/

namespace RoutineScripts

namespace Text

/-- Three characters from one before two signs on do not go past the signs. -/
theorem take_append_signs (c y z : Char) (front first second : Text) :
    (c :: (front ++ y :: z :: first)).take 3 = (c :: (front ++ y :: z :: second)).take 3 := by
  rcases front with _ | ⟨_, _ | ⟨_, _⟩⟩ <;> rfl

theorem ofGlyphs_take_cons (glyph : Glyph) (lead tail : List Glyph) {hidden : List Glyph}
    {y z : Char} {inner : Text} (shape : ofGlyphs hidden = y :: z :: inner) :
    ofGlyphs ((glyph :: (lead ++ (hidden ++ tail))).take 3) =
      (glyph.char :: (ofGlyphs lead ++ y :: z :: (inner ++ ofGlyphs tail))).take 3 := by
  have chars : ofGlyphs (glyph :: (lead ++ (hidden ++ tail))) =
      glyph.char :: (ofGlyphs lead ++ (ofGlyphs hidden ++ ofGlyphs tail)) := by
    simp [ofGlyphs]
  rw [shape, List.cons_append, List.cons_append] at chars
  rw [← chars, ofGlyphs, ofGlyphs, List.map_take]

/-- The text up to the keyword of a body and the keyword are not empty. -/
theorem splitAs?_ne_nil {previous : Option Char} {depth : Nat} {glyphs : List Glyph}
    {before after : Text} (found : splitAs? previous depth glyphs = some (before, after)) :
    before ≠ [] := by
  obtain ⟨passed, first, second, _, _, rfl, _⟩ := splitAs?_congr found
  simp [ofGlyphs]

/-- Whether a keyword stands at a line break does not depend on the character before it. -/
theorem splitAs?_previous {first second : Option Char} {depth : Nat} {glyphs : List Glyph}
    (alike : first = second ∨ ∀ c ∈ (ofGlyphs glyphs).head?, isBreak c = true) :
    splitAs? first depth glyphs = splitAs? second depth glyphs := by
  rcases alike with rfl | breaks
  · rfl
  cases glyphs with
  | nil => rfl
  | cons glyph rest =>
      have solid : glyph.char.toLower ≠ 'a' := by
        rcases eq_of_isBreak (breaks glyph.char rfl) with same | same <;> rw [same] <;> decide
      have notHere (previous : Option Char) : ¬ Marks previous depth [] glyph rest := by
        rintro ⟨_, _, keyword⟩
        obtain ⟨a, _, _, shape, isA, _⟩ := eq_cons_of_keywordAt keyword
        obtain ⟨rfl, _⟩ := List.cons.inj shape
        exact solid isA
      rw [splitAs?_of_not_marks (notHere first), splitAs?_of_not_marks (notHere second)]

/-- The search for the keyword of a body passes over a comment. -/
theorem splitAs?_hidden {hidden : List Glyph} (isHidden : Glyph.Hidden hidden)
    (previous : Option Char) (depth : Nat) (tail : List Glyph) :
    splitAs? previous depth (hidden ++ tail) =
      (splitAs? ((ofGlyphs hidden).getLast?.or previous) depth tail).map
        fun (before, after) => (ofGlyphs hidden ++ before, after) := by
  induction hidden generalizing previous with
  | nil => simp [ofGlyphs]
  | cons glyph hidden ih =>
      obtain ⟨⟨here, _⟩, later⟩ := List.forall_mem_cons.mp isHidden
      have notHere : ¬ Marks previous depth [] glyph (hidden ++ tail) := fun marks => by
        rw [marks.1] at here
        cases here
      have same : Glyph.depthStep depth glyph = depth := by simp [Glyph.depthStep, here]
      rw [List.cons_append, splitAs?_of_not_marks notHere, same, ih later, Option.map_map]
      cases hidden with
      | nil => rfl
      | cons second hidden => simp [ofGlyphs, List.getLast?_cons, Function.comp_def]

section Comment

variable {lead hidden hiddenToo tail : List Glyph} (isHidden : Glyph.Hidden hidden)
  (isHiddenToo : Glyph.Hidden hiddenToo)
  {y z : Char} {inner innerToo : Text} (sign : y = '-' ∨ y = '/')
  (shape : ofGlyphs hidden = y :: z :: inner) (shapeToo : ofGlyphs hiddenToo = y :: z :: innerToo)
  (joins : (ofGlyphs hidden).getLast? = (ofGlyphs hiddenToo).getLast? ∨
    ∀ c ∈ (ofGlyphs tail).head?, isBreak c = true)

include isHidden isHiddenToo sign shape shapeToo joins in
/-- **Comments do not hide the keyword of a body.** A keyword that is found past a comment is found
past a reworded comment. -/
theorem splitAs?_reworded {previous : Option Char} {depth : Nat} {before after : Text}
    (found : splitAs? previous depth (lead ++ (hidden ++ tail)) = some (before, after))
    (past : lead.length < before.length) :
    ∃ more, more ≠ [] ∧ before = ofGlyphs lead ++ (ofGlyphs hidden ++ more) ∧
      splitAs? previous depth (lead ++ (hiddenToo ++ tail)) =
        some (ofGlyphs lead ++ (ofGlyphs hiddenToo ++ more), after) := by
  induction lead generalizing previous depth before with
  | nil =>
      rw [List.nil_append, splitAs?_hidden isHidden] at found
      obtain ⟨⟨more, _⟩, later, same⟩ := Option.map_eq_some_iff.mp found
      obtain ⟨rfl, rfl⟩ := Prod.mk.inj same
      refine ⟨more, splitAs?_ne_nil later, rfl, ?_⟩
      have last : splitAs? ((ofGlyphs hiddenToo).getLast?.or previous) depth tail =
          splitAs? ((ofGlyphs hidden).getLast?.or previous) depth tail :=
        splitAs?_previous (joins.imp_left fun same => by rw [same])
      rw [List.nil_append, splitAs?_hidden isHiddenToo, last, later]
      rfl
  | cons glyph lead ih =>
      by_cases marks : Marks previous depth [] glyph (lead ++ (hidden ++ tail))
      · -- The keyword holds no sign that opens a comment.
        obtain ⟨second, others, split, _, isS, answer⟩ := splitAs?_of_marks marks
        rw [List.cons_append, answer] at found
        obtain ⟨rfl, _⟩ := Prod.mk.inj (Option.some.inj found)
        obtain rfl : lead = [] := by
          simp only [List.length_cons, List.length_nil] at past
          exact List.eq_nil_of_length_eq_zero (by omega)
        obtain ⟨first, rest, rfl⟩ : ∃ first rest, hidden = first :: rest :=
          List.exists_cons_of_ne_nil (by rintro rfl; cases shape)
        obtain ⟨rfl, _⟩ := List.cons.inj split
        obtain ⟨rfl, _⟩ := List.cons.inj shape
        rcases sign with same | same <;> rw [same] at isS <;> exact absurd isS (by decide)
      · have seen : ofGlyphs ((glyph :: (lead ++ (hiddenToo ++ tail))).take 3) =
            ofGlyphs ((glyph :: (lead ++ (hidden ++ tail))).take 3) := by
          rw [ofGlyphs_take_cons glyph lead tail shape, ofGlyphs_take_cons glyph lead tail shapeToo,
            take_append_signs]
        have notHere : ¬ Marks previous depth [] glyph (lead ++ (hiddenToo ++ tail)) := by
          rwa [marks_nil_iff, seen, ← marks_nil_iff]
        rw [List.cons_append, splitAs?_of_not_marks marks] at found
        obtain ⟨⟨later, _⟩, foundLater, same⟩ := Option.map_eq_some_iff.mp found
        obtain ⟨rfl, rfl⟩ := Prod.mk.inj same
        obtain ⟨more, nonempty, rfl, again⟩ := ih foundLater (by simpa using past)
        refine ⟨more, nonempty, rfl, ?_⟩
        rw [List.cons_append, splitAs?_of_not_marks notHere, again]
        rfl

end Comment

end Text

namespace Glyph.Alike

open Text

variable {front comment other rest : Text} {lead hidden hiddenToo tail : List Glyph}

/-- **Masked texts do not show comments.** -/
theorem maskComments_eq (alike : Alike front comment other rest lead hidden hiddenToo tail)
    (size : other.byteLength = comment.byteLength) :
    maskComments (front ++ (other ++ rest)) = maskComments (front ++ (comment ++ rest)) := by
  rw [Text.maskComments_eq, Text.maskComments_eq, alike.scan, alike.scanToo]
  rw [List.flatMap_append, List.flatMap_append, List.flatMap_append, List.flatMap_append,
    flatMap_maskGlyph_of_isComment fun glyph member => (alike.isHidden glyph member).2,
    flatMap_maskGlyph_of_isComment fun glyph member => (alike.isHiddenToo glyph member).2,
    alike.hiddenText, alike.hiddenTooText, size]

/-- A body that is found past a comment is found past a reworded comment. -/
theorem locate? (alike : Alike front comment other rest lead hidden hiddenToo tail)
    {previous : Option Char} {more after : Text} {literal : Literal}
    (found : Literal.locate? previous (front ++ (comment ++ rest)) =
      some (front ++ (comment ++ more), literal, after)) :
    more ≠ [] ∧ Literal.locate? previous (front ++ (other ++ rest)) =
      some (front ++ (other ++ more), literal, after) := by
  obtain ⟨words, opened, keyword, leading, read⟩ := Literal.locate?_eq_some_iff.mp found
  obtain ⟨y, z, inner, innerToo, sign, shape, shapeToo⟩ := alike.signs
  have past : front.length < words.length := by
    apply Nat.lt_of_not_le
    intro short
    -- The white space before the literal would hold the sign that opens the comment.
    obtain ⟨gap, rfl⟩ : words <+: front :=
      List.prefix_of_prefix_length_le ⟨_, leading.symm⟩ ⟨_, rfl⟩ short
    rw [List.append_assoc] at leading
    have member : y ∈ opened.takeWhile isAsciiBlank := by
      rw [← List.append_cancel_left leading, shape]
      simp
    have blank := List.all_eq_true.mp List.all_takeWhile y member
    rcases sign with rfl | rfl <;> exact absurd blank (by decide)
  rw [alike.scan] at keyword
  obtain ⟨inside, nonempty, rfl, again⟩ := splitAs?_reworded alike.isHidden alike.isHiddenToo sign
    (alike.hiddenText.trans shape) (alike.hiddenTooText.trans shapeToo)
    (by simpa only [alike.hiddenText, alike.hiddenTooText, alike.tailText] using alike.joins)
    keyword (by simpa [← alike.leadText, ofGlyphs] using past)
  rw [alike.leadText, alike.hiddenText, List.append_assoc, List.append_assoc] at leading
  obtain rfl := List.append_cancel_left (List.append_cancel_left leading)
  refine ⟨by simp [nonempty], Literal.locate?_eq_some_iff.mpr ⟨front ++ (other ++ inside), opened,
    ?_, by simp, read⟩⟩
  rw [alike.scanToo, again, alike.leadText, alike.hiddenTooText]

end Glyph.Alike

namespace Script

open Text Glyph

/-- A statement is cut at the same place when a comment in it is reworded, where no comment
statement opens up to the end of the comment. -/
theorem cutStatement_reworded {front comment other rest more after : Text}
    {lead hidden hiddenToo tail : List Glyph} {remark : Option Remark}
    (alike : Alike front comment other rest lead hidden hiddenToo tail)
    (misses : Misses (fun _ rest => Remark.opening rest) none (front ++ comment) rest)
    (missesToo : Misses (fun _ rest => Remark.opening rest) none (front ++ other) rest)
    (cut : cutStatement (front ++ (comment ++ rest)) =
      (front ++ (comment ++ more), remark, after)) :
    cutStatement (front ++ (other ++ rest)) = (front ++ (other ++ more), remark, after) := by
  have passed := Remark.find?_append misses
  have passedToo := Remark.find?_append missesToo
  rw [List.append_assoc] at passed passedToo
  rw [cutStatement, passed] at cut
  rw [cutStatement, passedToo]
  cases found : Remark.find? rest with
  | some parts =>
      obtain ⟨before, remark, after⟩ := parts
      rw [found, Option.map_some] at cut
      obtain ⟨same, others⟩ := Prod.mk.inj cut
      rw [List.append_assoc] at same
      rw [Option.map_some, ← List.append_cancel_left (List.append_cancel_left same), ← others]
      simp only [List.append_assoc]
  | none =>
      rw [found, Option.map_none] at cut
      rw [Option.map_none]
      cases split : (front ++ (comment ++ rest)).splitTopLevel? ';' with
      | none =>
          rw [splitStatement?, split] at cut
          obtain ⟨same, others⟩ := Prod.mk.inj cut
          rw [splitStatement?, alike.splitTopLevel?_eq_none split,
            ← List.append_cancel_left (List.append_cancel_left same), ← others]
          rfl
      | some parts =>
          obtain ⟨statement, later⟩ := parts
          rw [splitStatement?, split] at cut
          obtain ⟨same, others⟩ := Prod.mk.inj cut
          obtain ⟨y, z, inner, _, _, shape, _⟩ := alike.signs
          have past : front.length ≤ statement.length := by
            have sizes := congrArg List.length same
            rw [shape] at sizes
            simp only [List.length_append, List.length_cons, List.length_nil] at sizes
            omega
          obtain ⟨before, rfl, again⟩ := alike.splitTopLevel?_eq_some split past
          rw [List.append_assoc, List.append_assoc] at same
          rw [splitStatement?, again, ← List.append_cancel_left (List.append_cancel_left same),
            ← others]
          simp

/-- A part of the text of a script lies among its options: after the argument list, in the
statement, and not in the body. The part is given by the byte offsets of its ends. -/
structure AmongOptions (script : Script) (first last : Nat) : Prop where
  listed : script.closing < first
  apart : last ≤ script.bodySpan.1 ∨ script.bodySpan.2 ≤ first
  within : last ≤ script.statementEnd

instance (script : Script) (first last : Nat) : Decidable (script.AmongOptions first last) :=
  decidable_of_iff (script.closing < first ∧
      (last ≤ script.bodySpan.1 ∨ script.bodySpan.2 ≤ first) ∧ last ≤ script.statementEnd)
    ⟨fun ⟨listed, apart, within⟩ => ⟨listed, apart, within⟩,
      fun ⟨listed, apart, within⟩ => ⟨listed, apart, within⟩⟩

/-- What precedes the options in a script, after the text before it. -/
def listHead (script : Script) : Text :=
  script.header.written ++ script.name ++ '(' :: script.arguments ++ [')']

/-- A part of a script is written in front of the body or after it. -/
inductive Holds (script : Script) (front part back : Text) : Prop
  | leading {lead more : Text} : script.leading = lead ++ (part ++ more) →
      front = script.listHead ++ lead → back = more ++ (script.body.written ++ script.epilogue) →
      Holds script front part back
  | trailing {lead more : Text} : script.trailing = lead ++ (part ++ more) →
      front = script.listHead ++ (script.leading ++ (script.body.written ++ lead)) →
      back = more ++ ((script.remark.map Remark.written).getD [] ++ script.after) →
      Holds script front part back

/-- What precedes the options ends after the closing parenthesis. -/
theorem byteLength_listHead (script : Script) :
    (script.before ++ script.listHead).byteLength = script.closing + 1 := by
  have small : byteLength [')'] = 1 := rfl
  have smallToo : '('.utf8Size = 1 := rfl
  simp only [listHead, closing, opening, byteLength_append, byteLength_cons, small, smallToo]
  omega

/-- A part among the options is written in front of the body or after it. -/
theorem holds_of_amongOptions {script : Script} {front part back : Text}
    (split : script.text = script.before ++ (front ++ (part ++ back)))
    (among : script.AmongOptions (script.before ++ front).byteLength
      (script.before ++ front ++ part).byteLength) : script.Holds front part back := by
  have whole : script.before ++ script.listHead ++ script.remainder =
      script.before ++ front ++ (part ++ back) := by
    rw [List.append_assoc script.before front, ← split, text_eq]
    simp [listHead]
  have listed := among.listed
  obtain ⟨lead, shape, remainder_eq⟩ := exists_append_of_byteLength_le whole
    (by rw [byteLength_listHead]; omega)
  rw [List.append_assoc] at shape
  obtain rfl := List.append_cancel_left shape
  obtain ⟨bodyStart, bodyEnd⟩ := bodySpan_eq script
  have sizes := byteLength_listHead script
  have headSize : (script.header.written ++ script.head).byteLength =
      (script.listHead ++ script.leading).byteLength := by
    congr 1
    simp [listHead, head]
  simp only [byteLength_append] at sizes headSize bodyStart bodyEnd among
  rcases among.apart with ahead | behind
  · rw [remainder] at remainder_eq
    obtain ⟨more, leading, rest⟩ := exists_append_of_byteLength_le
      (show lead ++ part ++ back = script.leading ++ (script.body.written ++ script.epilogue) by
        rw [remainder_eq, List.append_assoc])
      (by simp only [byteLength_append]; omega)
    exact .leading (by rw [leading, List.append_assoc]) rfl rest
  · obtain ⟨inside, lead_eq, rest⟩ := exists_append_of_byteLength_le
      (show script.leading ++ script.body.written ++ script.epilogue = lead ++ (part ++ back) by
        rw [← remainder_eq, remainder, List.append_assoc])
      (by simp only [byteLength_append]; omega)
    obtain ⟨more, trailing, after⟩ := exists_append_of_byteLength_le
      (show inside ++ part ++ back = script.trailing ++
          ((script.remark.map Remark.written).getD [] ++ script.after) by
        rw [List.append_assoc, ← rest, epilogue, List.append_assoc])
      (by
        have within := among.within
        have leadSize := congrArg byteLength lead_eq
        simp only [statementEnd, byteLength_append] at within leadSize ⊢
        omega)
    refine .trailing (by rw [trailing, List.append_assoc]) ?_ after
    rw [lead_eq, List.append_assoc]

section Token

variable {text front back : Text} {script : Script} {token other : Token}

/-- The first sign of a comment alone decides whether the text before it settles. -/
theorem settles_congr (rewords : token.Rewords other)
    (settles : Settles front (token.written ++ back)) (more : Text) :
    Settles front (token.written ++ more) := by
  obtain ⟨y, z, inner, _, sign, shape, _⟩ := rewords.signs
  have separates : isIdentifierChar y = false := by rcases sign with rfl | rfl <;> decide
  rw [shape, List.cons_append] at settles ⊢
  exact (settles.congr separates _).1

/-- What is written after the body settles by itself. -/
theorem settles_trailing (found : ofText? text = some script) (rewords : token.Rewords other)
    {lead more : Text} (trailing : script.trailing = lead ++ (token.written ++ more))
    (settles : Settles (script.listHead ++ (script.leading ++ (script.body.written ++ lead)))
      (token.written ++ back)) : Settles lead (token.written ++ more) := by
  obtain ⟨_, head, body⟩ := settles_of_ofText? found
  have whole : Settles (script.head ++ script.body.written ++ lead) (token.written ++ more) := by
    have shape : script.listHead ++ (script.leading ++ (script.body.written ++ lead)) =
        script.header.written ++ (script.head ++ script.body.written ++ lead) := by
      simp [listHead, Script.head]
    rw [shape] at settles
    exact settles_congr rewords
      (((laid_of_ofText? found).settles_header _).of_append settles) more
  rw [trailing] at head body
  exact (head.append body).of_append whole

/-- In the text of the options, a space stands where the body was. -/
theorem settles_options (found : ofText? text = some script) {lead rest : Text}
    (settles : Settles lead rest) : Settles (script.leading ++ ([' '] ++ lead)) rest := by
  have space : Settles [' '] (lead ++ rest) := settles_of_plain (by simp) _
  have leading := ((settles_of_ofText? found).1.detached detached_space (lead ++ rest)).1
  exact Settles.append (by simpa using leading) (space.append settles)

/-- A script whose body is found past a reworded comment is the same script with that comment. -/
theorem ofText?_of_located (found : ofText? text = some script) (rewords : token.Rewords other)
    (fits : token.Fits back) {inner more leading trailing : Text}
    (settles : Settles (script.listHead ++ inner) (token.written ++ back))
    (quiet : Remark.OpensNowhere text script.before.length
      (script.before ++ (script.listHead ++ inner ++ token.written)).length)
    (quietAfter : Remark.OpensNowhere
      (script.before ++ (script.listHead ++ inner ++ (other.written ++ back)))
      script.before.length (script.before ++ (script.listHead ++ inner ++ other.written)).length)
    (statement : script.leading ++ (script.body.written ++ script.trailing) =
      inner ++ (token.written ++ more))
    (rest : back = more ++ ((script.remark.map Remark.written).getD [] ++ script.after))
    (located : Literal.locate? (some ')') (inner ++ (other.written ++ more)) =
      some (leading, script.body, trailing)) :
    ofText? (script.before ++ (script.listHead ++ inner ++ (other.written ++ back))) =
      some { script with leading, trailing } := by
  obtain ⟨name, name_eq⟩ :
      ∃ name, name = script.name ++ '(' :: (script.arguments ++ ')' :: inner) := ⟨_, rfl⟩
  have front_eq : script.listHead ++ inner = script.header.written ++ name := by
    rw [name_eq]
    simp [listHead]
  have statement_eq : script.statement = name ++ (token.written ++ more) := by
    rw [name_eq, List.append_assoc, List.cons_append, List.append_assoc, List.cons_append,
      ← statement]
    simp [Script.statement, head]
  have misses (comment : Text) {whole : Text}
      (split : whole = script.before ++ (script.header.written ++ name ++ (comment ++ back)))
      (none : Remark.OpensNowhere whole script.before.length
        (script.before ++ (script.header.written ++ name ++ comment)).length) :
      Misses (fun _ rest => Remark.opening rest) Option.none (name ++ comment) back := by
    have regroup : whole =
        script.before ++ script.header.written ++ (name ++ comment) ++ back := by
      rw [split]
      simp
    rw [regroup] at none
    exact none.misses (by simp) (by simp)
  have text_eq : text =
      script.before ++ (script.header.written ++ name ++ (token.written ++ back)) := by
    rw [← text_of_ofText? found, text_eq_statement, statement_eq, rest]
    simp
  have cut : cutStatement (name ++ (token.written ++ back)) =
      (name ++ (token.written ++ more), script.remark, script.after) := by
    have whole : script.head ++ script.body.written ++ script.epilogue =
        name ++ (token.written ++ back) := by
      calc script.head ++ script.body.written ++ script.epilogue
          = script.statement ++ ((script.remark.map Remark.written).getD [] ++ script.after) := by
            simp [Script.statement, epilogue]
        _ = name ++ (token.written ++ back) := by
            rw [statement_eq, rest]
            simp
    rw [← whole, ← statement_eq]
    exact cutStatement_of_ofText? found
  rw [front_eq] at settles quiet quietAfter ⊢
  have settlesName : Settles name (token.written ++ back) :=
    ((laid_of_ofText? found).settles_header _).of_append settles
  obtain ⟨lead, hidden, hiddenToo, tail, alike⟩ := rewords.alike fits settlesName
  have cutToo := cutStatement_reworded alike (misses token.written text_eq quiet)
    (misses other.written rfl quietAfter) cut
  have whole := ofText?_listed found ((script.remark.map Remark.written).getD [] ++ script.after)
    (by simpa [name_eq, rest] using cutToo) located
  rw [rest, name_eq]
  simpa using whole

/-- Text that goes on in the same way lets a comment end where it ends. -/
theorem fits_of_isPrefix (rewords : token.Rewords other) (fits : token.Fits back) {more : Text}
    (leads : more <+: back) : token.Fits more := by
  obtain ⟨rest, rfl⟩ := leads
  refine fits.of_head? rewords.isComment fun c first => ?_
  obtain ⟨tail, rfl⟩ := List.head?_eq_some_iff.mp first
  rfl

/-- **Scripts with a reworded comment.** A script is the same, up to the comment among its options,
when the comment is reworded and no comment statement opens up to its end. -/
theorem ofText?_of_holds (found : ofText? text = some script) (rewords : token.Rewords other)
    (size : other.written.byteLength = token.written.byteLength) (fits : token.Fits back)
    (settles : Settles front (token.written ++ back))
    (holds : script.Holds front token.written back)
    (quiet : Remark.OpensNowhere text script.before.length
      (script.before ++ (front ++ token.written)).length)
    (quietAfter : Remark.OpensNowhere (script.before ++ (front ++ (other.written ++ back)))
      script.before.length (script.before ++ (front ++ other.written)).length) :
    ∃ leading trailing, ofText? (script.before ++ (front ++ (other.written ++ back))) =
        some { script with leading, trailing } ∧
      leading.byteLength = script.leading.byteLength ∧
      (leading ++ ' ' :: trailing).maskComments = script.optionText.maskComments := by
  have laid := laid_of_ofText? found
  obtain ⟨_, _, _, listed, _, _, _, _, located⟩ := ofText?_eq_some_iff.mp found
  have listed_eq := Literal.eq_append_of_locate? located
  cases holds with
  | @leading lead more leading front_eq back_eq =>
      subst front_eq
      have settlesLead : Settles lead (token.written ++ back) :=
        (laid.settles_list _).of_append settles
      have fitsBody : token.Fits (more ++ (script.body.written ++ script.trailing)) := by
        refine fits_of_isPrefix rewords fits
          ⟨(script.remark.map Remark.written).getD [] ++ script.after, ?_⟩
        rw [back_eq, epilogue]
        simp
      obtain ⟨_, _, _, _, alike⟩ := rewords.alike fitsBody (settles_congr rewords settlesLead _)
      rw [listed_eq, leading] at located
      obtain ⟨nonempty, locatedToo⟩ := alike.locate? (by simpa using located)
      have fitsOptions : token.Fits (more ++ ' ' :: script.trailing) := by
        refine fits.of_head? rewords.isComment fun c first => ?_
        obtain ⟨d, others, rfl⟩ := List.exists_cons_of_ne_nil nonempty
        rw [back_eq]
        exact first
      obtain ⟨_, _, _, _, options⟩ :=
        rewords.alike fitsOptions (settles_congr rewords settlesLead _)
      refine ⟨lead ++ (other.written ++ more), script.trailing,
        ofText?_of_located found rewords fits settles quiet quietAfter (by simp [leading]) ?_
          locatedToo, ?_, ?_⟩
      · rw [back_eq, epilogue]
        simp
      · rw [leading]
        simp [size]
      · have masked := options.maskComments_eq size
        simpa [optionText, leading] using masked
  | @trailing lead more trailing front_eq back_eq =>
      subst front_eq
      have fitsMore : token.Fits more :=
        fits_of_isPrefix rewords fits ⟨_, back_eq.symm⟩
      have settlesOptions := settles_options found
        (settles_trailing found rewords trailing settles)
      obtain ⟨_, _, _, _, options⟩ := rewords.alike fitsMore settlesOptions
      obtain ⟨y, z, inner, innerToo, sign, shape, shapeToo⟩ := rewords.signs
      have stops : Literal.Stops y := by rcases sign with rfl | rfl <;> constructor <;> decide
      have locatedToo : Literal.locate? (some ')')
          (script.leading ++ (script.body.written ++ lead) ++ (other.written ++ more)) =
            some (script.leading, script.body, lead ++ (other.written ++ more)) := by
        rw [listed_eq, trailing, shape] at located
        rw [shapeToo]
        exact Literal.locate?_congr stops (by simpa using located) _
      refine ⟨script.leading, lead ++ (other.written ++ more),
        ofText?_of_located found rewords fits settles quiet quietAfter (by simp [trailing]) back_eq
          locatedToo, rfl, ?_⟩
      have masked := options.maskComments_eq size
      simpa [optionText, trailing] using masked

end Token

end Script

namespace Definition

open Text

/-- Two definitions declare the same routine and stand between the same texts. -/
structure Matches (first second : Definition) : Prop extends SameOptions first second where
  kind : first.kind = second.kind
  name : first.name = second.name
  arguments : first.arguments = second.arguments
  before : first.before = second.before
  after : first.after = second.after
  comment : first.comment = second.comment
  body : first.script.body = second.script.body
  bodySpan : first.script.bodySpan = second.script.bodySpan

variable {text scanned : Text} {front back : List Token} {token other : Token}
  {definition : Definition}

/-- **Comments among the options are inert.** When the text from the definition on is cut into
tokens, and a comment token lies among the options, the inside of the comment can be replaced by any
text with as many bytes that does not end the comment early. The definition stays the same, provided
that in neither text a comment statement opens between the definition and the end of the comment. -/
theorem ofText?_reworded (parsed : ofText? text = some definition)
    (split : text = definition.script.before ++ scanned)
    (segments : Token.Segments (front ++ token :: back) scanned)
    (among : definition.script.AmongOptions
      (definition.script.before ++ Token.textOf front).byteLength
      (definition.script.before ++ Token.textOf (front ++ [token])).byteLength)
    (rewords : token.Rewords other)
    (size : other.written.byteLength = token.written.byteLength)
    (quiet : Remark.OpensNowhere text definition.script.before.length
      (definition.script.before ++ Token.textOf (front ++ [token])).length)
    (quietAfter : Remark.OpensNowhere
      (definition.script.before ++ Token.textOf (front ++ other :: back))
      definition.script.before.length
      (definition.script.before ++ Token.textOf (front ++ [other])).length) :
    ∃ changed, ofText? (definition.script.before ++ Token.textOf (front ++ other :: back)) =
        some changed ∧ changed.Matches definition := by
  obtain ⟨script, found, rfl⟩ := Option.map_eq_some_iff.mp parsed
  have single (last : Token) :
      Token.textOf (front ++ [last]) = Token.textOf front ++ last.written := by
    rw [Token.textOf_append, Token.textOf_cons]
    simp [Token.textOf]
  have settles := Token.settles_of_segments segments rewords.isComment
  have fits := segments.fits
  have holds : script.Holds (Token.textOf front) token.written (Token.textOf back) := by
    refine Script.holds_of_amongOptions ?_ ?_
    · rw [Script.text_of_ofText? found, split, segments.eq_textOf, Token.textOf_append,
        Token.textOf_cons]
      rfl
    · rw [single, ← List.append_assoc] at among
      exact among
  rw [Token.textOf_append, Token.textOf_cons] at quietAfter ⊢
  rw [single] at quiet quietAfter
  obtain ⟨leading, trailing, foundToo, same, masked⟩ :=
    Script.ofText?_of_holds found rewords size fits settles holds quiet quietAfter
  have options :
      Options.ofText (leading ++ ' ' :: trailing) = Options.ofText script.optionText := by
    simp only [Options.ofText, masked]
  have span : Script.bodySpan { script with leading, trailing } = script.bodySpan := by
    simp only [Script.bodySpan, Script.prologue, byteLength_append, byteLength_cons, same]
  refine ⟨_, congrArg (Option.map ofScript) foundToo, ?_⟩
  exact {
    returns := congrArg Options.returns options
    language := congrArg Options.language options
    securityDefiner := congrArg Options.securityDefiner options
    attributes := congrArg (·.attributes script.header.kind) options
    kind := (Options.kind_attributes _ _).trans (Options.kind_attributes _ _).symm
    name := rfl
    arguments := rfl
    before := rfl
    after := rfl
    comment := rfl
    body := rfl
    bodySpan := span }

/-- A script with a comment in front of its body. -/
def annotated (inner : Text) : Script :=
  { constantOne with leading := " /*".toList ++ inner ++ "*/ AS ".toList }

/-- The tokens of that script before its comment and after it. -/
def annotatedTokens : List Token × List Token :=
  ("CREATE FUNCTION f() ".toList.map .plain,
    " AS ".toList.map .plain ++
      (.bracketed (.dollar ['$', '$']) ['1'] true :: " STABLE;".toList.map .plain))

/-- The tokens of a script with a comment in front of its body. -/
theorem segments_annotated {inner : Text} (absent : ¬ ['*', '/'] <:+: inner) :
    Token.Segments (annotatedTokens.1 ++ .bracketed .block inner true :: annotatedTokens.2)
      (annotated inner).text := by
  have plain (front : Text) (none : front.all (· ∉ ['-', '/', '$', '\'', '"']) = true) :
      ∀ c ∈ front, c ∉ ['-', '/', '$', '\'', '"'] := by
    simpa using none
  have ending : Token.Segments (" STABLE;".toList.map .plain ++ []) (" STABLE;".toList ++ []) :=
    Token.segments_plain (plain _ (by decide)) rfl
  have body : (Token.bracketed (.dollar ['$', '$']) ['1'] true).Fits (" STABLE;".toList ++ []) :=
    ⟨⟨[], rfl, by simp⟩, (splitFirst?_eq_some_iff.mp
      (show splitFirst? ['$', '$'] ['1', '$', '$'] = some (['1'], []) by decide)).2⟩
  have later : Token.Segments annotatedTokens.2
      (" AS ".toList ++ ("$$1$$".toList ++ (" STABLE;".toList ++ []))) := by
    refine Token.segments_plain (plain _ (by decide)) ⟨_, rfl, body, ?_⟩
    simpa using ending
  have comment : (Token.bracketed .block inner true).Fits
      (" AS ".toList ++ ("$$1$$".toList ++ (" STABLE;".toList ++ []))) :=
    ⟨trivial, Token.firstAfter_star_slash absent⟩
  have text_eq : (annotated inner).text = "CREATE FUNCTION f() ".toList ++
      ((Token.bracketed .block inner true).written ++
        (" AS ".toList ++ ("$$1$$".toList ++ (" STABLE;".toList ++ [])))) := by
    simp [annotated, constantOne, Script.text, Script.prologue, Script.epilogue, Literal.written,
      Token.written, Bracket.opener, Bracket.closer]
  rw [text_eq]
  exact Token.segments_plain (plain _ (by decide)) ⟨_, rfl, comment, later⟩

/-- Signs and keywords in a comment change nothing. -/
theorem ofText?_reworded_annotated :
    let words := "the value is one".toList
    let others := "';( AS $$ STRICT".toList
    ofText? (annotated words).text = some (ofScript (annotated words)) ∧
      ∃ changed, ofText? (annotated others).text = some changed ∧
        changed.Matches (ofScript (annotated words)) := by
  intro words others
  have parsed : ofText? (annotated words).text = some (ofScript (annotated words)) := by
    decide +kernel
  have segments := segments_annotated (show ¬ ['*', '/'] <:+: words by decide +kernel)
  have rewords : Token.Rewords (.bracketed .block words true) (.bracketed .block others true) :=
    .block (by decide +kernel)
  have among : (annotated words).AmongOptions
      ((annotated words).before ++ Token.textOf annotatedTokens.1).byteLength
      ((annotated words).before ++ Token.textOf
        (annotatedTokens.1 ++ [.bracketed .block words true])).byteLength := by decide +kernel
  have text_eq : (annotated others).text = (annotated words).before ++
      Token.textOf (annotatedTokens.1 ++ .bracketed .block others true :: annotatedTokens.2) := by
    decide +kernel
  obtain ⟨changed, parsedToo, same⟩ := ofText?_reworded parsed rfl segments among rewords
    (by decide +kernel) (by decide +kernel) (by decide +kernel)
  exact ⟨parsed, changed, text_eq ▸ parsedToo, same⟩

end Definition

end RoutineScripts
