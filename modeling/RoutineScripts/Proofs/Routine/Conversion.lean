import RoutineScripts.Proofs.Encoding.Utf8
import RoutineScripts.Proofs.Routine.Definition
import RoutineScripts.Proofs.Routine.Summary

/-!
# Line endings in a summary

A text with normalised line breaks defines the same routine, but its summary can be another one. The
arguments and the comment are normalised when a script is read, and the body when it is summarised.
The name, the type and the name of the language keep the line breaks that they are written with, and
a `\r\n` in a comment leaves one space more in a type or in a quoted language name than a `\n` does.

The main statement is `Definition.encode_summary_normalize_iff`: the summary stays the same exactly
when there is no `\r` in the name and none that counts in the type and in the name of the language.
Those are read from the options with the comments masked except for the `\r` of a `\r\n`
(`Text.maskKeepingReturns`).
-/

namespace RoutineScripts

open Text Glyph

/-- Glyphs with the comments masked except for the `\r` of each `\r\n`. -/
def Glyph.Writing.kept : Writing where
  lone := maskGlyph
  pair first second := first.char :: maskGlyph second
  shown _ := Writing.maskGlyph_of_isShown
  hidden _ := Writing.maskGlyph_of_hidden
  spaced first second isReturn isFeed := by
    have blank := (Writing.maskGlyph_of_hidden (isShown_of_pair isReturn isFeed).2).2
    have here : isBlank first.char = true := by
      rw [isReturn]
      decide
    exact ⟨List.cons_ne_nil _ _, List.forall_mem_cons.mpr ⟨here, blank⟩⟩

/-- A text with its comments masked, in which the `\r` of each `\r\n` stays. -/
def Text.maskKeepingReturns (text : Text) : Text :=
  Writing.kept.write text.scan

/-- Two texts of two parts each, the second text at most as long as the first part by part. -/
theorem Text.append_eq_append_iff_of_le {first second firstRest secondRest : Text}
    (shorter : second.length ≤ first.length) (shorterRest : secondRest.length ≤ firstRest.length) :
    second ++ secondRest = first ++ firstRest ↔ second = first ∧ secondRest = firstRest := by
  constructor
  · intro same
    have sizes := congrArg List.length same
    rw [List.length_append, List.length_append] at sizes
    exact List.append_inj same (by omega)
  · rintro ⟨rfl, rfl⟩
    rfl

/-- `normal` is what normalising the line breaks makes of `raw`. It makes a difference when there is
a `\r` in `kept`. -/
structure Converts (raw normal kept : Text) : Prop where
  shorter : normal.length ≤ raw.length
  same_iff : normal = raw ↔ '\r' ∉ kept

namespace Converts

variable {raw normal kept : Text}

theorem refl {text : Text} (free : '\r' ∉ text) : Converts text text text :=
  ⟨Nat.le_refl _, iff_of_true rfl free⟩

theorem append {rawRest normalRest keptRest : Text} (first : Converts raw normal kept)
    (rest : Converts rawRest normalRest keptRest) :
    Converts (raw ++ rawRest) (normal ++ normalRest) (kept ++ keptRest) where
  shorter := by
    rw [List.length_append, List.length_append]
    exact Nat.add_le_add first.shorter rest.shorter
  same_iff := by
    rw [append_eq_append_iff_of_le first.shorter rest.shorter, List.mem_append, not_or]
    exact and_congr first.same_iff rest.same_iff

/-- Around a text that a conversion may change, what it never changes can be left out. -/
theorem of_enclosed {lead tail : Text} (free : '\r' ∉ lead ++ tail)
    (whole : Converts (lead ++ (raw ++ tail)) (lead ++ (normal ++ tail)) (lead ++ (kept ++ tail))) :
    Converts raw normal kept := by
  rw [List.mem_append, not_or] at free
  exact ⟨by simpa using whole.shorter, by simpa [free] using whole.same_iff⟩

/-- A text converts to its normalization. -/
theorem normalize (text : Text) : Converts text text.normalize text := by
  refine ⟨?_, ⟨fun same => same ▸ return_not_mem_normalize text, normalize_of_not_mem⟩⟩
  induction text with
  | nil => exact Nat.le_refl _
  | cons c rest ih =>
      rw [normalize_cons_eq, List.length_append, List.length_cons]
      have short : (unified c rest.head?).length ≤ 1 := by
        rcases unified_cases c rest.head? with ⟨shape, _⟩ | ⟨shape, _⟩ | ⟨shape, _⟩ <;> simp [shape]
      omega

/-- A `\r\n` becomes one glyph, so the text gets shorter whether or not it is in a comment. -/
theorem pair {first second : Glyph} (isReturn : first.char = '\r') (isFeed : second.char = '\n') :
    Converts (maskGlyph first ++ maskGlyph second) (maskGlyph first.unify)
      (first.char :: maskGlyph second) := by
  have unified : first.unify.char = '\n' := by simp [unify, isReturn]
  have longer : (maskGlyph first.unify).length < (maskGlyph first ++ maskGlyph second).length := by
    rw [List.length_append, length_maskGlyph (by rw [unified]; rfl),
      length_maskGlyph (by rw [isReturn]; rfl), length_maskGlyph (by rw [isFeed]; rfl)]
    exact Nat.lt_succ_self 1
  refine ⟨Nat.le_of_lt longer, iff_of_false (fun same => ?_) fun free => free ?_⟩
  · exact Nat.ne_of_lt longer (congrArg List.length same)
  · exact isReturn ▸ List.mem_cons_self

/-- A `\r` alone stays one in length, and in a comment it makes no difference. -/
theorem lone (glyph : Glyph) :
    Converts (maskGlyph glyph) (maskGlyph glyph.unify) (maskGlyph glyph) := by
  by_cases isReturn : glyph.char = '\r'
  · have unified : glyph.unify.char = '\n' := by simp [unify, isReturn]
    cases comment : glyph.isComment with
    | true =>
        have commentToo : glyph.unify.isComment = true := comment
        rw [maskGlyph_of_isComment comment, maskGlyph_of_isComment commentToo, isReturn, unified]
        exact refl (by decide)
    | false =>
        have codeToo : glyph.unify.isComment = false := comment
        rw [maskGlyph_of_code comment, maskGlyph_of_code codeToo, isReturn, unified]
        exact ⟨Nat.le_refl _, by decide⟩
  · have same : glyph.unify = glyph := by rw [unify, if_neg isReturn]
    rw [same]
    refine refl ?_
    cases comment : glyph.isComment with
    | true => simp [maskGlyph_of_isComment comment]
    | false => simpa [maskGlyph_of_code comment] using Ne.symm isReturn

/-- **Writings convert.** -/
theorem write (glyphs : List Glyph) :
    Converts (Writing.masked.write glyphs) (Writing.normalized.write glyphs)
      (Writing.kept.write glyphs) := by
  induction glyphs using pairInduction with
  | nil => exact refl List.not_mem_nil
  | pair first second rest isReturn isFeed ih =>
      rw [Writing.write_pair _ isReturn isFeed, Writing.write_pair _ isReturn isFeed,
        Writing.write_pair _ isReturn isFeed]
      exact (pair isReturn isFeed).append ih
  | cons glyph rest alone ih =>
      rw [Writing.write_cons _ alone, Writing.write_cons _ alone, Writing.write_cons _ alone]
      exact (lone glyph).append ih

end Converts

namespace Options

open Recogniser

/-! ### Types -/

/-- What follows the word of the first clause for a type. -/
def afterReturns (segment : Text) : Text :=
  (clause? "RETURNS" some segment).getD []

/-- The type is what stands before a terminator, trimmed. -/
theorem returnsIn_eq_trim (segment : Text) :
    returnsIn segment = (untilTerminator (afterReturns segment)).trim := by
  rw [returnsIn, afterReturns]
  cases clause? "RETURNS" some segment <;> rfl

/-- What follows the keyword commutes with squeezing. -/
theorem afterReturns_squeeze (segment : Text) :
    afterReturns (squeeze segment) = squeeze (afterReturns segment) := by
  rw [afterReturns, afterReturns,
    clause?_squeeze ⟨by decide, by decide⟩ fun rest => (Option.map_some ..).symm]
  cases clause? "RETURNS" some segment <;> rfl

/-- What follows the keyword starts with a visible character and ends the segment. -/
theorem exists_afterReturns (segment : Text) :
    ∃ front, segment = front ++ afterReturns segment ∧
      (afterReturns segment).head?.any isBlank = false := by
  rw [afterReturns]
  cases found : clause? "RETURNS" some segment with
  | none => exact ⟨segment, (List.append_nil segment).symm, rfl⟩
  | some rest =>
      rw [clause?_eq, Option.map_eq_some_iff] at found
      obtain ⟨⟨passed, value⟩, searched, rfl⟩ := found
      obtain ⟨tail, rfl, accepted⟩ := eq_append_of_search searched
      obtain ⟨_, spelled, gap, rest, rfl, _, _, _, starts, same⟩ :=
        clauseTest_eq_some_iff.mp accepted
      obtain rfl := Option.some.inj same
      exact ⟨passed ++ (spelled ++ gap), by simp, starts⟩

/-- What stands before a terminator is a front of the text. -/
theorem untilTerminator_prefix (text : Text) : untilTerminator text <+: text := by
  cases text with
  | nil => exact List.nil_prefix
  | cons c rest =>
      rw [untilTerminator_eq]
      refine List.cons_prefix_cons.mpr ⟨rfl, ?_⟩
      cases found : search terminatorTest (some c) rest with
      | none => exact List.prefix_refl rest
      | some parts =>
          obtain ⟨tail, split, _⟩ := eq_append_of_search found
          exact ⟨tail, split.symm⟩

/-- The type is a front of what follows the keyword and ends in a visible character. -/
theorem exists_returnsIn (segment : Text) :
    ∃ more, afterReturns segment = returnsIn segment ++ more ∧
      (returnsIn segment).getLast?.any isBlank = false := by
  obtain ⟨_, _, starts⟩ := exists_afterReturns segment
  obtain ⟨back, split⟩ := untilTerminator_prefix (afterReturns segment)
  have startsToo : (untilTerminator (afterReturns segment)).head?.any isBlank = false := by
    cases rest : afterReturns segment with
    | nil => rfl
    | cons c rest =>
        rw [rest] at starts
        rw [untilTerminator_eq]
        exact starts
  rw [returnsIn_eq_trim, trim, dropWhile_of_starts startsToo]
  refine ⟨takeTail isBlank (untilTerminator (afterReturns segment)) ++ back, ?_, ?_⟩
  · rw [← List.append_assoc, dropTail_append_takeTail, split]
  · rcases dropTail_cases isBlank (untilTerminator (afterReturns segment)) with
      none | ⟨front, z, shape, visible⟩
    · rw [none]
      rfl
    · simpa [shape] using visible

/-- **Types in writings.** However glyphs are written, the type that is read is written from the
same glyphs. -/
theorem exists_returnsIn_write (glyphs : List Glyph) :
    ∃ lead, ∀ writing : Writing, returnsIn (writing.write glyphs) = writing.write lead := by
  have alike (writing : Writing) := Writing.squeeze_write writing Writing.masked glyphs
  refine ⟨upTo (visibleCount (returnsIn (Writing.masked.write glyphs)))
    (fromLast (visibleCount (afterReturns (Writing.masked.write glyphs))) glyphs),
    fun writing => ?_⟩
  have after : visibleCount (afterReturns (writing.write glyphs)) =
      visibleCount (afterReturns (Writing.masked.write glyphs)) := by
    rw [← visibleCount_squeeze, ← afterReturns_squeeze, alike writing, afterReturns_squeeze,
      visibleCount_squeeze]
  have type : visibleCount (returnsIn (writing.write glyphs)) =
      visibleCount (returnsIn (Writing.masked.write glyphs)) := by
    rw [← visibleCount_collapse, ← collapse_returnsIn_squeeze, alike writing,
      collapse_returnsIn_squeeze, visibleCount_collapse]
  obtain ⟨front, split, starts⟩ := exists_afterReturns (writing.write glyphs)
  obtain ⟨more, splitToo, ends⟩ := exists_returnsIn (writing.write glyphs)
  have tail := writing.eq_write_fromLast split starts
  rw [← after, ← type]
  exact writing.eq_write_upTo (tail.symm.trans splitToo) ends

/-- The type that is read converts. -/
theorem converts_returnsIn (glyphs : List Glyph) :
    Converts (returnsIn (Writing.masked.write glyphs)) (returnsIn (Writing.normalized.write glyphs))
      (returnsIn (Writing.kept.write glyphs)) := by
  obtain ⟨lead, written⟩ := exists_returnsIn_write glyphs
  rw [written, written, written]
  exact Converts.write lead

/-! ### Names of languages -/

/-- The name of a language, together with the text that it is read from. -/
def languageAt? (rest : Text) : Option (Text × Text) :=
  (languageName? rest).map fun name => (name, rest)

/-- The name of a language and what follows it commute with squeezing. -/
theorem languageAt?_squeeze (rest : Text) :
    languageAt? (squeeze rest) =
      (languageAt? rest).map fun (name, rest) => (squeeze name, squeeze rest) := by
  rw [languageAt?, languageAt?, languageName?_squeeze, Option.map_map, Option.map_map]
  rfl

/-- The name of a language is what is read with it and what follows it. -/
theorem clause?_languageAt (segment : Text) :
    clause? "LANGUAGE" languageName? segment =
      (clause? "LANGUAGE" languageAt? segment).map Prod.fst := by
  rw [← clause?_map]
  refine congrArg (clause? "LANGUAGE" · segment) (funext fun rest => ?_)
  rw [languageAt?, Option.map_map]
  exact Option.map_id_fun.symm ▸ rfl

/-- The name of a language is read where a clause has one. -/
theorem exists_of_languageAt {segment name rest : Text}
    (found : clause? "LANGUAGE" languageAt? segment = some (name, rest)) :
    languageName? rest = some name ∧ rest.head?.any isBlank = false ∧
      ∃ front, segment = front ++ rest := by
  rw [clause?_eq, Option.map_eq_some_iff] at found
  obtain ⟨⟨passed, value⟩, searched, rfl⟩ := found
  obtain ⟨tail, rfl, accepted⟩ := eq_append_of_search searched
  obtain ⟨_, spelled, gap, after, rfl, _, _, _, starts, read⟩ := clauseTest_eq_some_iff.mp accepted
  obtain ⟨other, named, same⟩ := Option.map_eq_some_iff.mp read
  obtain ⟨rfl, rfl⟩ := Prod.mk.inj same
  exact ⟨named, starts, passed ++ (spelled ++ gap), by simp⟩

/-- A name with white space in it is quoted. -/
theorem eq_quoted_of_languageName? {rest name : Text} (read : languageName? rest = some name)
    (blank : name.any isBlank = true) : ∃ after, rest = ('"' :: (name ++ ['"'])) ++ after := by
  by_cases quoted : rest.head? = some '"'
  · obtain ⟨opened, rfl⟩ := List.head?_eq_some_iff.mp quoted
    rw [languageName?_quoted] at read
    cases found : run1 (· != '"') opened with
    | none => simp [found] at read
    | some parts =>
        obtain ⟨inner, after⟩ := parts
        obtain ⟨_, rfl, _, _⟩ := run1_eq_some_iff.mp found
        rw [found] at read
        obtain ⟨⟨closing, others⟩, closed, rfl⟩ := Option.map_eq_some_iff.mp read
        obtain ⟨_, rfl⟩ := char_eq_some_iff.mp closed
        exact ⟨others, by simp⟩
  · rw [languageName?_of_bare quoted] at read
    obtain ⟨⟨inner, after⟩, found, rfl⟩ := Option.map_eq_some_iff.mp read
    obtain ⟨_, _, identifier, _⟩ := run1_eq_some_iff.mp found
    obtain ⟨c, member, isBlankChar⟩ := List.any_eq_true.mp blank
    have fails : isFoldedIdentifierChar c = false := eq_false_of_isBlank (by decide) isBlankChar
    rw [identifier c member] at fails
    cases fails

/-- Up to white space, the clause for the language and what it is read from are the same in all
writings of the same glyphs. -/
theorem map_squeeze_languageAt_write (glyphs : List Glyph) (writing : Writing) :
    (clause? "LANGUAGE" languageAt? (writing.write glyphs)).map
        (fun (name, rest) => (squeeze name, squeeze rest)) =
      (clause? "LANGUAGE" languageAt? (Writing.masked.write glyphs)).map
        fun (name, rest) => (squeeze name, squeeze rest) := by
  rw [← clause?_squeeze ⟨by decide, by decide⟩ languageAt?_squeeze,
    ← clause?_squeeze ⟨by decide, by decide⟩ languageAt?_squeeze,
    Writing.squeeze_write writing Writing.masked]

/-- A name that is read from one way to write glyphs is read from all, up to white space. -/
theorem exists_languageAt_write {glyphs : List Glyph} {name rest : Text}
    (found : clause? "LANGUAGE" languageAt? (Writing.masked.write glyphs) = some (name, rest))
    (writing : Writing) :
    ∃ other restToo, clause? "LANGUAGE" languageAt? (writing.write glyphs) = some (other, restToo) ∧
      squeeze other = squeeze name ∧ squeeze restToo = squeeze rest := by
  have alike := map_squeeze_languageAt_write glyphs writing
  rw [found, Option.map_some, Option.map_eq_some_iff] at alike
  obtain ⟨⟨other, restToo⟩, foundToo, same⟩ := alike
  obtain ⟨names, rests⟩ := Prod.mk.inj same
  exact ⟨other, restToo, foundToo, names, rests⟩

/-- A name with white space in it is written, with its quotes, from the glyphs that its number of
visible characters and that of the rest of the text tell. -/
theorem quoted_eq_write {glyphs : List Glyph} {writing : Writing} {name rest : Text}
    (found : clause? "LANGUAGE" languageAt? (writing.write glyphs) = some (name, rest))
    (blank : name.any isBlank = true) :
    '"' :: (name ++ ['"']) =
      writing.write (upTo (visibleCount name + 2) (fromLast (visibleCount rest) glyphs)) := by
  obtain ⟨read, starts, front, split⟩ := exists_of_languageAt found
  obtain ⟨after, splitToo⟩ := eq_quoted_of_languageName? read blank
  have ends : ('"' :: (name ++ ['"'])).getLast?.any isBlank = false := by
    have mark : isBlank '"' = false := by decide
    simp [List.getLast?_cons, mark]
  have quotes : visibleCount ('"' :: (name ++ ['"'])) = visibleCount name + 2 := by
    rw [visibleCount_cons (by decide), visibleCount_append]
    rfl
  have tail := writing.eq_write_fromLast split starts
  rw [← quotes]
  exact writing.eq_write_upTo (tail.symm.trans splitToo) ends

/-- **Names of languages in writings.** However glyphs are written, the name that is read holds no
white space and is the same, or it is written between its quotes from the same glyphs. -/
theorem exists_languageName_write (glyphs : List Glyph) :
    (∀ writing : Writing, clause? "LANGUAGE" languageName? (writing.write glyphs) = none) ∨
      (∃ name, name.any isBlank = false ∧ ∀ writing : Writing,
        clause? "LANGUAGE" languageName? (writing.write glyphs) = some name) ∨
      ∃ lead, ∀ writing : Writing, ∃ name,
        clause? "LANGUAGE" languageName? (writing.write glyphs) = some name ∧
          name.any isBlank = true ∧ '"' :: (name ++ ['"']) = writing.write lead := by
  simp only [clause?_languageAt]
  cases found : clause? "LANGUAGE" languageAt? (Writing.masked.write glyphs) with
  | none =>
      refine Or.inl fun writing => ?_
      have none := map_squeeze_languageAt_write glyphs writing
      rw [found, Option.map_none, Option.map_eq_none_iff] at none
      rw [none]
      rfl
  | some parts =>
      obtain ⟨name, rest⟩ := parts
      cases blank : name.any isBlank with
      | false =>
          refine Or.inr (Or.inl ⟨name, blank, fun writing => ?_⟩)
          obtain ⟨other, restToo, foundToo, names, _⟩ := exists_languageAt_write found writing
          have blankToo : other.any isBlank = false := by
            rw [← any_isBlank_squeeze, names, any_isBlank_squeeze, blank]
          have visible {text : Text} (none : text.any isBlank = false) : squeeze text = text :=
            squeeze_of_visible (by simpa using none)
          rw [visible blankToo, visible blank] at names
          rw [foundToo, names]
          rfl
      | true =>
          refine Or.inr (Or.inr ⟨upTo (visibleCount name + 2)
            (fromLast (visibleCount rest) glyphs), fun writing => ?_⟩)
          obtain ⟨other, restToo, foundToo, names, rests⟩ := exists_languageAt_write found writing
          have blankToo : other.any isBlank = true := by
            rw [← any_isBlank_squeeze, names, any_isBlank_squeeze, blank]
          refine ⟨other, by rw [foundToo]; rfl, blankToo, ?_⟩
          rw [← visibleCount_eq_of_squeeze names, ← visibleCount_eq_of_squeeze rests]
          exact quoted_eq_write foundToo blankToo

/-- A language whose name holds no return is written without one. -/
theorem return_not_mem_resolve {name : Option Text} (free : ∀ text ∈ name, '\r' ∉ text) :
    '\r' ∉ (Language.resolve name).text := by
  cases named : (Language.resolve name).name? with
  | none =>
      rw [Language.text_of_name?_eq_none named]
      cases Language.resolve name with
      | userDefined declared => exact (by decide : '\r' ∉ "user-defined".toList)
      | _ => decide
  | some declared =>
      have absent := free declared (Language.eq_some_of_name?_resolve named)
      have word : '\r' ∉ "user-defined".toList ∧ '\r' ∉ " (".toList ∧ '\r' ∉ ")".toList := by decide
      rw [Language.text_of_name?_eq_some named]
      simp only [List.mem_append, not_or]
      exact ⟨⟨⟨word.1, word.2.1⟩, absent⟩, word.2.2⟩

/-- The language that is read converts. -/
theorem converts_languageIn (glyphs : List Glyph) :
    Converts (languageIn (Writing.masked.write glyphs)).text
      (languageIn (Writing.normalized.write glyphs)).text
      (languageIn (Writing.kept.write glyphs)).text := by
  rw [languageIn, languageIn, languageIn]
  rcases exists_languageName_write glyphs with none | ⟨name, visible, same⟩ | ⟨lead, quoted⟩
  · rw [none, none, none]
    exact Converts.refl (return_not_mem_resolve (by simp))
  · rw [same, same, same]
    refine Converts.refl (return_not_mem_resolve ?_)
    rintro text ⟨⟩ member
    exact absurd (List.any_eq_false.mp visible _ member) (by decide)
  · obtain ⟨raw, read, blank, written⟩ := quoted Writing.masked
    obtain ⟨normal, readToo, blankToo, writtenToo⟩ := quoted Writing.normalized
    obtain ⟨kept, readKept, blankKept, writtenKept⟩ := quoted Writing.kept
    have convertsWritten := Converts.write lead
    rw [← written, ← writtenToo, ← writtenKept] at convertsWritten
    have names : Converts raw normal kept :=
      Converts.of_enclosed (show '\r' ∉ ['"'] ++ ['"'] by decide) convertsWritten
    have shape {name : Text} (blank : name.any isBlank = true) :
        (Language.resolve (some name)).text =
          "user-defined (".toList ++ (name ++ ")".toList) := by
      rw [Language.resolve_of_blank blank]
      rfl
    rw [read, readToo, readKept, shape blank, shape blankToo, shape blankKept]
    exact (Converts.refl (by decide)).append (names.append (Converts.refl (by decide)))

end Options

namespace Definition

/-- Normalizing a body keeps the lines that are hashed. -/
theorem plainLines_eq_of_normalize {definition normal : Definition}
    (body : normal.bodyText = definition.bodyText.normalize) :
    normal.plainLines = definition.plainLines := by
  rw [plainLines, plainLines, body, normalize_normalize]

/-- Two summaries that differ in the name, the type and the language only are the same when these
are, provided that in one of them none is longer. -/
theorem summary_eq_iff_of_le {first second : Definition} (kind : second.kind = first.kind)
    (arguments : second.arguments = first.arguments)
    (attributes : second.attributes = first.attributes)
    (definer : second.securityDefiner = first.securityDefiner)
    (lines : second.plainLines = first.plainLines) (comment : second.comment = first.comment)
    (name : second.name.qualified.length ≤ first.name.qualified.length)
    (returns : second.returns.length ≤ first.returns.length)
    (language : second.language.text.length ≤ first.language.text.length) :
    second.summary = first.summary ↔ second.name.qualified = first.name.qualified ∧
      second.returns = first.returns ∧ second.language.text = first.language.text := by
  simp only [summary, summaryFields, List.flatMap_cons, List.append_assoc, kind, arguments,
    attributes, definer, lines, comment, List.append_cancel_left_eq]
  refine (append_eq_append_iff_of_le name ?_).trans (and_congr_right fun _ => ?_)
  · simp only [List.length_append]
    omega
  simp only [List.append_cancel_left_eq]
  refine (append_eq_append_iff_of_le returns ?_).trans (and_congr_right fun _ => ?_)
  · simp only [List.length_append]
    omega
  simp only [List.append_cancel_left_eq, List.append_cancel_right_eq]

variable {text : Text} {definition : Definition}

/-- **Line endings in a summary.** -/
theorem encode_summary_normalize_iff (parsed : ofText? text = some definition) :
    ∃ normal, ofText? text.normalize = some normal ∧
      (Utf8.encode normal.summary = Utf8.encode definition.summary ↔
        '\r' ∉ definition.name.qualified ∧
          '\r' ∉ Options.returnsIn definition.script.optionText.maskKeepingReturns ∧
          '\r' ∉ (Options.languageIn definition.script.optionText.maskKeepingReturns).text) := by
  obtain ⟨script, found, rfl⟩ := Option.map_eq_some_iff.mp parsed
  have isNormalized := isNormalized_ofScript found
  have name := Converts.normalize (ofScript script).name.qualified
  have returns := Options.converts_returnsIn script.optionText.scan
  have language := Options.converts_languageIn script.optionText.scan
  have masked : script.optionText.maskComments = Writing.masked.write script.optionText.scan :=
    maskComments_eq_write _
  have maskedToo : script.normalize.optionText.maskComments =
      Writing.normalized.write script.optionText.scan := by
    rw [Script.optionText_normalize, maskComments_normalize_eq_write]
  rw [← masked, ← maskedToo] at returns language
  rw [← isNormalized.qualified] at name
  refine ⟨ofScript script.normalize, ?_, ?_⟩
  · rw [ofText?, Script.ofText?_normalize, found]
    rfl
  rw [Utf8.encode_injective.eq_iff, summary_eq_iff_of_le isNormalized.kind isNormalized.arguments
    isNormalized.attributes isNormalized.securityDefiner
    (plainLines_eq_of_normalize isNormalized.bodyText) isNormalized.comment name.shorter
    returns.shorter language.shorter]
  exact and_congr name.same_iff (and_congr returns.same_iff language.same_iff)

/-- A script with a type of two lines. -/
def tabular (inside outside : Text) : Script :=
  { constantOne with
    leading := " RETURNS TABLE (a int,".toList ++ inside ++ " b int)".toList ++ outside ++
      "AS ".toList }

/-- A `\r\n` behind the type is no change. -/
theorem encode_summary_normalize_iff_tabular :
    let script := tabular ['\n'] ['\r', '\n']
    ofText? script.text = some (ofScript script) ∧
      ∃ normal, ofText? script.text.normalize = some normal ∧
        Utf8.encode normal.summary = Utf8.encode (ofScript script).summary := by
  intro script
  have parsed : ofText? script.text = some (ofScript script) := by decide +kernel
  have bare : '\r' ∉ (ofScript script).name.qualified ∧
      '\r' ∉ Options.returnsIn script.optionText.maskKeepingReturns ∧
      '\r' ∉ (Options.languageIn script.optionText.maskKeepingReturns).text := by decide +kernel
  obtain ⟨normal, parsedToo, same⟩ := encode_summary_normalize_iff parsed
  exact ⟨parsed, normal, parsedToo, same.mpr bare⟩

/-- A `\r\n` in the type is one. -/
theorem encode_summary_ne_of_tabular :
    let script := tabular ['\r', '\n'] [' ']
    let normal := tabular ['\n'] [' ']
    ofText? script.text = some (ofScript script) ∧
      ofText? script.text.normalize = some (ofScript normal) ∧
      Utf8.encode (ofScript normal).summary ≠ Utf8.encode (ofScript script).summary := by
  intro script normal
  have parsed : ofText? script.text = some (ofScript script) := by decide +kernel
  have parsedToo : ofText? script.text.normalize = some (ofScript normal) := by decide +kernel
  have differs : (ofScript normal).summary ≠ (ofScript script).summary := by decide +kernel
  exact ⟨parsed, parsedToo, fun same => differs (Utf8.encode_injective same)⟩

end Definition

end RoutineScripts
