import RoutineScripts.Proofs.Routine.Normalization
import RoutineScripts.Routine.Remark

/-!
# Remarks of a normalised text

A comment statement is found at the same place of a normalised text, and it makes the same comment
(`Remark.find?_normalize`). Its literal starts at a visible character, so it does not matter that
what stands before it gets shorter (`Remark.findValue?_normalize`). The comment is normalised in any
case (`Remark.unquote?_normalize`).
-/

namespace RoutineScripts

namespace Remark

open Recogniser Text

theorem normalizes_opening : opening.Normalizes := by
  apply normalizes_sequence
  simp only [List.forall_mem_cons]
  exact ⟨normalizes_keyword rfl rfl, normalizes_blanks, normalizes_keyword rfl rfl,
    normalizes_blanks,
    normalizes_orElse (normalizes_keyword rfl rfl) (normalizes_keyword rfl rfl),
    fun _ member => absurd member List.not_mem_nil⟩

theorem normalizes_dollarTag : dollarTag.Normalizes := by
  apply normalizes_sequence
  simp only [List.forall_mem_cons]
  exact ⟨normalizes_char rfl, normalizes_run rfl, normalizes_char rfl,
    fun _ member => absurd member List.not_mem_nil⟩

theorem normalizes_ending : ending.Normalizes := by
  apply normalizes_sequence
  simp only [List.forall_mem_cons]
  exact ⟨normalizes_run rfl, normalizes_char rfl, fun _ member => absurd member List.not_mem_nil⟩

theorem normalizes_introduction : introduction.Normalizes := by
  apply normalizes_sequence
  simp only [List.forall_mem_cons]
  exact ⟨normalizes_keyword rfl rfl, normalizes_blanks,
    fun _ member => absurd member List.not_mem_nil⟩

theorem opening_break (c : Char) (rest : Text) (breaks : isBreak c = true) :
    opening (c :: rest) = none := by
  obtain rfl | rfl := eq_of_isBreak breaks <;> rfl

theorem introduction_break (c : Char) (rest : Text) (breaks : isBreak c = true) :
    introduction (c :: rest) = none := by
  obtain rfl | rfl := eq_of_isBreak breaks <;> rfl

theorem dollarTag_break (c : Char) (rest : Text) (breaks : isBreak c = true) :
    dollarTag (c :: rest) = none := by
  obtain rfl | rfl := eq_of_isBreak breaks <;> rfl

/-- A dollar tag starts with a dollar sign. -/
theorem head?_of_dollarTag {text tag rest : Text} (read : dollarTag text = some (tag, rest)) :
    tag.head? = some '$' := by
  obtain ⟨first, _, others, opened, _, rfl⟩ := andThen_eq_some_iff.mp read
  obtain ⟨rfl, _⟩ := char_eq_some_iff.mp opened
  rfl

/-- A comment statement ends in a semicolon. -/
theorem getLast?_of_ending {text close after : Text} (read : ending text = some (close, after)) :
    close.getLast? = some ';' := by
  simp only [ending, Recogniser.sequence, List.foldr_cons, List.foldr_nil, andThen_eq_some_iff,
    char_eq_some_iff, nothing, Option.some.injEq, Prod.mk.injEq] at read
  obtain ⟨gap, _, _, _, ⟨_, _, _, ⟨rfl, _⟩, ⟨rfl, _⟩, rfl⟩, rfl⟩ := read
  simp

/-! ### Literals of comment statements -/

/-- A value with the line breaks in all its parts normalised. -/
def Value.normalize (value : Value) : Value :=
  ⟨value.passed.normalize, value.literal.normalize, value.close.normalize, value.after.normalize⟩

/-- A quoted content is normalized between its quotes. -/
theorem normalize_quote (content : Text) : content.quote.normalize = content.normalize.quote := by
  have visible : isBreak '\'' = false := rfl
  rw [quote, List.cons_append, normalize_cons visible, normalize_append_cons visible]
  rfl

/-- A quoted value is read after an introduction and a quote. -/
theorem readQuoted?_of_quote {text words opened : Text}
    (introduced : introduction text = some (words, '\'' :: opened)) :
    readQuoted? text =
      (splitQuoted? opened).bind fun (content, rest) =>
        (ending rest).map fun (close, after) => ⟨words, content.quote, close, after⟩ := by
  rw [readQuoted?, introduced]
  cases closed : splitQuoted? opened <;> simp [closed]

/-- Without a quote after the introduction there is no quoted value. -/
theorem readQuoted?_of_bare {text words rest : Text}
    (introduced : introduction text = some (words, rest)) (bare : rest.head? ≠ some '\'') :
    readQuoted? text = none := by
  rw [readQuoted?, introduced]
  split
  case h_1 shape =>
    cases shape
    exact absurd rfl bare
  case h_2 => rfl

theorem readQuoted?_normalize (text : Text) :
    readQuoted? text.normalize = (readQuoted? text).map Value.normalize := by
  have visible : isBreak '\'' = false := rfl
  have introduced := normalizes_introduction.commutes text
  cases found : introduction text with
  | none =>
      rw [found] at introduced
      rw [readQuoted?, introduced, readQuoted?, found]
      rfl
  | some parts =>
      obtain ⟨words, rest⟩ := parts
      rw [found, Option.map_some] at introduced
      by_cases quote : rest.head? = some '\''
      · obtain ⟨opened, rfl⟩ := List.head?_eq_some_iff.mp quote
        simp only [normalize_cons visible] at introduced
        rw [readQuoted?_of_quote introduced, readQuoted?_of_quote found, splitQuoted?_normalize]
        cases splitQuoted? opened with
        | none => rfl
        | some closed =>
            simp only [Option.map_some, Option.bind_some, normalizes_ending.commutes,
              Option.map_map]
            congr 1
            funext ended
            simp [Value.normalize, normalize_quote]
      · have bare : rest.normalize.head? ≠ some '\'' := by
          rwa [Ne, head?_normalize_eq_some_iff visible]
        rw [readQuoted?_of_bare introduced bare, readQuoted?_of_bare found quote]
        rfl

/-- No quoted value starts at a line break. -/
theorem readQuoted?_break (c : Char) (rest : Text) (breaks : isBreak c = true) :
    readQuoted? (c :: rest) = none := by
  rw [readQuoted?, introduction_break c rest breaks]

theorem readOpeningTag?_normalize (text : Text) :
    readOpeningTag? text.normalize =
      (readOpeningTag? text).map fun (words, first, opened) =>
        (words.normalize, first.normalize, opened.normalize) := by
  rw [readOpeningTag?, readOpeningTag?, normalizes_introduction.commutes]
  cases introduction text with
  | none => rfl
  | some parts =>
      simp only [Option.map_some, normalizes_dollarTag.commutes, Option.map_map]
      rfl

/-- No opening tag starts at a line break. -/
theorem readOpeningTag?_break (c : Char) (rest : Text) (breaks : isBreak c = true) :
    readOpeningTag? (c :: rest) = none := by
  rw [readOpeningTag?, introduction_break c rest breaks]

theorem readClosingTag?_normalize (text : Text) :
    readClosingTag? text.normalize =
      (readClosingTag? text).map fun (last, close, after) =>
        (last.normalize, close.normalize, after.normalize) := by
  rw [readClosingTag?, readClosingTag?, normalizes_dollarTag.commutes]
  cases dollarTag text with
  | none => rfl
  | some parts =>
      simp only [Option.map_some, normalizes_ending.commutes, Option.map_map]
      rfl

/-- No closing tag starts at a line break. -/
theorem readClosingTag?_break (c : Char) (rest : Text) (breaks : isBreak c = true) :
    readClosingTag? (c :: rest) = none := by
  rw [readClosingTag?, dollarTag_break c rest breaks]

theorem findQuoted?_normalize (text : Text) :
    findQuoted? text.normalize = (findQuoted? text).map Value.normalize := by
  rw [findQuoted?, findQuoted?,
    search_normalize_of_forward readQuoted?_break readQuoted?_normalize]
  cases searched : search (fun _ rest => readQuoted? rest) none text with
  | none => rfl
  | some found =>
      obtain ⟨passed, value⟩ := found
      obtain ⟨rest, _, clean, read⟩ := cleanCut_of_search readQuoted?_break searched
      rw [eq_whole_of_readQuoted? read, Value.whole, List.append_assoc, List.append_assoc] at clean
      simp [Value.normalize, normalize_append clean.of_append]

theorem findDollar?_normalize (text : Text) :
    findDollar? text.normalize = (findDollar? text).map Value.normalize := by
  rw [findDollar?, findDollar?,
    search_normalize_of_forward readOpeningTag?_break readOpeningTag?_normalize]
  cases searched : search (fun _ rest => readOpeningTag? rest) none text with
  | none => rfl
  | some found =>
      obtain ⟨passed, words, first, opened⟩ := found
      simp only [Option.map_some,
        search_normalize_of_forward readClosingTag?_break readClosingTag?_normalize]
      cases ended : search (fun _ rest => readClosingTag? rest) none opened with
      | none => rfl
      | some foundToo =>
          obtain ⟨content, last, close, after⟩ := foundToo
          obtain ⟨rest, _, clean, read⟩ := cleanCut_of_search readOpeningTag?_break searched
          obtain ⟨tail, inner, cleanToo, readToo⟩ := cleanCut_of_search readClosingTag?_break ended
          have front : CleanCut passed words := by
            rw [eq_append_of_readOpeningTag? read, List.append_assoc] at clean
            exact clean.of_append
          have back : CleanCut content last := by
            rw [eq_append_of_readClosingTag? readToo, List.append_assoc] at cleanToo
            exact cleanToo.of_append
          have tagged : CleanCut first (content ++ last) := by
            rw [readOpeningTag?] at read
            split at read
            case h_1 => cases read
            case h_2 introduced rest' _ =>
              simp only [Option.map_eq_some_iff, Prod.exists, Prod.mk.injEq] at read
              obtain ⟨tag, rest'', tagRead, rfl, rfl, rfl⟩ := read
              have clean := normalizes_dollarTag.cleanCut _ _ _ tagRead
              rw [inner, eq_append_of_readClosingTag? readToo, List.append_assoc,
                ← List.append_assoc] at clean
              exact clean.of_append
          simp [Value.normalize, normalize_append front, normalize_append back,
            normalize_append tagged]

/-- Where the literal of a comment statement stands, and where the statement ends. -/
structure Value.Stands (value : Value) (text : Text) : Prop where
  whole : text = value.whole
  opens : ∃ z ∈ value.literal.head?, isBreak z = false
  closes : value.close.getLast? = some ';'

/-- A quoted value starts with a quote and ends in a semicolon. -/
theorem ends_of_findQuoted? {text : Text} {value : Value}
    (found : findQuoted? text = some value) :
    value.literal.head? = some '\'' ∧ value.close.getLast? = some ';' := by
  simp only [findQuoted?, Option.map_eq_some_iff, Prod.exists] at found
  obtain ⟨passed, inner, searched, rfl⟩ := found
  obtain ⟨rest, _, read⟩ := eq_append_of_search searched
  unfold readQuoted? at read
  split at read
  case h_1 words opened introduced =>
    split at read
    case h_1 => cases read
    case h_2 content after closed =>
      simp only [Option.map_eq_some_iff, Prod.exists] at read
      obtain ⟨close, tail, ended, rfl⟩ := read
      exact ⟨rfl, getLast?_of_ending ended⟩
  case h_2 => cases read

/-- A value between dollar tags starts with a dollar sign and ends in a semicolon. -/
theorem ends_of_findDollar? {text : Text} {value : Value}
    (found : findDollar? text = some value) :
    value.literal.head? = some '$' ∧ value.close.getLast? = some ';' := by
  unfold findDollar? at found
  split at found
  case h_1 => cases found
  case h_2 passed words first opened searched =>
    simp only [Option.map_eq_some_iff, Prod.exists] at found
    obtain ⟨content, last, close, after, ended, rfl⟩ := found
    obtain ⟨rest, _, read⟩ := eq_append_of_search searched
    obtain ⟨tail, _, closed⟩ := eq_append_of_search ended
    refine ⟨?_, ?_⟩
    · unfold readOpeningTag? at read
      split at read
      case h_1 => cases read
      case h_2 =>
        simp only [Option.map_eq_some_iff, Prod.exists, Prod.mk.injEq] at read
        obtain ⟨tag, _, tagged, rfl, rfl, rfl⟩ := read
        simp [head?_of_dollarTag tagged]
    · unfold readClosingTag? at closed
      split at closed
      case h_1 => cases closed
      case h_2 =>
        simp only [Option.map_eq_some_iff, Prod.exists, Prod.mk.injEq] at closed
        obtain ⟨_, _, closing, rfl, rfl, rfl⟩ := closed
        exact getLast?_of_ending closing

/-- A quoted value that is found stands in its text. -/
theorem stands_of_findQuoted? {text : Text} {value : Value}
    (found : findQuoted? text = some value) : value.Stands text where
  whole := eq_whole_of_findQuoted? found
  opens := ⟨'\'', (ends_of_findQuoted? found).1, rfl⟩
  closes := (ends_of_findQuoted? found).2

/-- A value between dollar tags that is found stands in its text. -/
theorem stands_of_findDollar? {text : Text} {value : Value}
    (found : findDollar? text = some value) : value.Stands text where
  whole := eq_whole_of_findDollar? found
  opens := ⟨'$', (ends_of_findDollar? found).1, rfl⟩
  closes := (ends_of_findDollar? found).2

theorem Value.Stands.exists_cons {value : Value} {text : Text} (stands : value.Stands text) :
    ∃ z rest, isBreak z = false ∧ text = value.passed ++ z :: rest := by
  obtain ⟨z, head, visible⟩ := stands.opens
  obtain ⟨tail, shape⟩ := List.head?_eq_some_iff.mp head
  refine ⟨z, tail ++ value.close ++ value.after, visible, ?_⟩
  rw [stands.whole, Value.whole, shape]
  simp

/-- A value of either form that is found stands in its text. -/
theorem stands_of_findValue? {text : Text} {value : Value}
    (found : findValue? text = some value) : value.Stands text := by
  unfold findValue? at found
  split at found
  case h_1 quoted dollar quotedFound dollarFound =>
    split at found
    · cases found
      exact stands_of_findQuoted? quotedFound
    · cases found
      exact stands_of_findDollar? dollarFound
  case h_2 quoted quotedFound _ =>
    cases found
    exact stands_of_findQuoted? quotedFound
  case h_3 => exact stands_of_findDollar? found

/-- **Comment literals ignore the kind of line breaks.** -/
theorem findValue?_normalize (text : Text) :
    findValue? text.normalize = (findValue? text).map Value.normalize := by
  rw [findValue?, findValue?, findQuoted?_normalize, findDollar?_normalize]
  cases quotedFound : findQuoted? text with
  | none => cases findDollar? text <;> rfl
  | some quoted =>
      cases dollarFound : findDollar? text with
      | none => rfl
      | some dollar =>
          obtain ⟨y, firstRest, firstVisible, first⟩ :=
            (stands_of_findQuoted? quotedFound).exists_cons
          obtain ⟨z, secondRest, secondVisible, second⟩ :=
            (stands_of_findDollar? dollarFound).exists_cons
          have shorter := length_normalize_lt_iff firstVisible secondVisible
            (first.symm.trans second)
          simp only [Option.map_some, Value.normalize, shorter]
          split <;> rfl

/-- Nothing is read at a line break in front. -/
theorem findValue?_break {c : Char} (breaks : isBreak c = true) (rest : Text) :
    findValue? (c :: rest) =
      (findValue? rest).map fun value => { value with passed := c :: value.passed } := by
  have quoted : findQuoted? (c :: rest) =
      (findQuoted? rest).map fun value => { value with passed := c :: value.passed } := by
    rw [findQuoted?, findQuoted?, search, readQuoted?_break c rest breaks,
      search_previous (fun _ _ _ => rfl) (some c) none]
    simp only [Option.map_map]
    rfl
  have dollar : findDollar? (c :: rest) =
      (findDollar? rest).map fun value => { value with passed := c :: value.passed } := by
    rw [findDollar?, findDollar?, search, readOpeningTag?_break c rest breaks,
      search_previous (fun _ _ _ => rfl) (some c) none]
    cases search (fun _ rest => readOpeningTag? rest) none rest with
    | none => rfl
    | some found =>
        simp only [Option.map_some, Option.map_map]
        rfl
  rw [findValue?, findValue?, quoted, dollar]
  cases findQuoted? rest with
  | none => cases findDollar? rest <;> rfl
  | some quoted =>
      cases findDollar? rest with
      | none => rfl
      | some dollar =>
          simp only [Option.map_some, List.length_cons, Nat.add_lt_add_iff_right]
          split <;> rfl

/-! ### Comments -/

/-- A literal with a tag is what stands between its tags. -/
theorem unquote?_of_tag {literal tag : Text}
    (tagged : RoutineScripts.dollarTag? literal = some tag) :
    unquote? literal =
      (afterLead? tag literal).bind fun rest => (beforeTail? tag rest).map Text.normalize := by
  unfold unquote?
  rw [tagged]
  simp only
  cases afterLead? tag literal <;> rfl

/-- The content of a literal that is not dollar-quoted. -/
def bareContent (literal : Text) : Text :=
  match literal with
  | '\'' :: rest => if rest.getLast? = some '\'' then rest.dropLast else literal
  | _ => literal

/-- A literal without a tag is what stands between its quotes. -/
theorem unquote?_of_untagged {literal : Text} (bare : RoutineScripts.dollarTag? literal = none) :
    unquote? literal = some (undouble (bareContent literal)).normalize := by
  unfold unquote?
  rw [bare]
  rfl

/-- Taking the quotes off commutes with normalization. -/
theorem bareContent_normalize (literal : Text) :
    bareContent literal.normalize = (bareContent literal).normalize := by
  have visible : isBreak '\'' = false := rfl
  by_cases quote : literal.head? = some '\''
  · obtain ⟨rest, rfl⟩ := List.head?_eq_some_iff.mp quote
    rw [normalize_cons visible, bareContent, bareContent]
    by_cases last : rest.getLast? = some '\''
    · rw [if_pos ((getLast?_normalize_eq_some_iff visible rest).mpr last), if_pos last,
        dropLast_normalize visible last]
    · rw [if_neg (mt (getLast?_normalize_eq_some_iff visible rest).mp last), if_neg last,
        normalize_cons visible]
  · have same (part : Text) (bare : part.head? ≠ some '\'') : bareContent part = part := by
      unfold bareContent
      split
      · exact absurd rfl bare
      · rfl
    rw [same literal quote, same _ (mt (head?_normalize_eq_some_iff visible literal).mp quote)]

/-- **Comments ignore the kind of line breaks.** -/
theorem unquote?_normalize (literal : Text) : unquote? literal.normalize = unquote? literal := by
  have tags := dollarTag?_normalize literal
  cases tagged : RoutineScripts.dollarTag? literal with
  | some tag =>
      have visible := (dollarTag?_eq_some_iff.mp tagged).1.visible
      rw [tagged] at tags
      rw [unquote?_of_tag tags, unquote?_of_tag tagged, afterLead?_normalize visible]
      cases afterLead? tag literal with
      | none => rfl
      | some rest =>
          simp [beforeTail?_normalize visible, Function.comp_def, normalize_normalize]
  | none =>
      rw [tagged] at tags
      rw [unquote?_of_untagged tags, unquote?_of_untagged tagged, bareContent_normalize,
        undouble_normalize, normalize_normalize]

/-! ### Comment statements -/

/-- A remark with its line breaks normalised. The comment that it makes is normalised already. -/
def normalize (remark : Remark) : Remark :=
  { remark with written := remark.written.normalize }

/-- The literal after the kind of routine and the text after the statement. The character after the
kind of routine may be the first one of a `\r\n`. -/
theorem exists_findValue?_normalize (c : Char) (rest : Text) :
    ∃ d tail, Text.normalize (c :: rest) = d :: tail ∧
      (findValue? tail).map (fun value => (value.literal, value.after)) =
        (findValue? rest).map fun value => (value.literal.normalize, value.after.normalize) := by
  have feeds : isBreak '\n' = true := rfl
  by_cases pair : c = '\r' ∧ rest.head? = some '\n'
  · obtain ⟨rfl, head⟩ := pair
    obtain ⟨later, rfl⟩ := List.head?_eq_some_iff.mp head
    refine ⟨'\n', Text.normalize later, by rw [Text.normalize], ?_⟩
    rw [findValue?_normalize, findValue?_break feeds, Option.map_map, Option.map_map]
    rfl
  · have lone : ∀ tail, c = '\r' → rest = '\n' :: tail → False := by
      rintro tail isReturn rfl
      exact pair ⟨isReturn, rfl⟩
    refine ⟨_, rest.normalize, Text.normalize.eq_3 _ _ lone, ?_⟩
    rw [findValue?_normalize, Option.map_map]
    rfl

/-- The place of the first comment statement in a text and the comment it makes. -/
def place? (text : Text) : Option (Text × Text × Text) :=
  (search (fun _ rest => opening rest) none text).bind fun (before, _, rest) =>
    match rest with
    | [] => none
    | _ :: rest =>
        ((findValue? rest).map fun value => (value.literal, value.after)).bind
          fun (literal, after) => (unquote? literal).map fun comment => (before, comment, after)

/-- A comment statement is found where its literal is. -/
theorem map_find? (text : Text) :
    (find? text).map (fun (before, remark, after) => (before, remark.text, after)) =
      place? text := by
  rw [find?, place?]
  cases search (fun _ rest => opening rest) none text with
  | none => rfl
  | some found =>
      obtain ⟨before, words, rest⟩ := found
      cases rest with
      | nil => rfl
      | cons c rest =>
          simp only [Option.bind_some]
          cases findValue? rest with
          | none => rfl
          | some value =>
              simp only [Option.map_some, Option.bind_some, Option.map_map]
              rfl

theorem place?_normalize (text : Text) :
    place? text.normalize =
      (place? text).map fun (before, comment, after) =>
        (before.normalize, comment, after.normalize) := by
  rw [place?, place?, search_normalize_of_forward opening_break normalizes_opening.commutes]
  cases search (fun _ rest => opening rest) none text with
  | none => rfl
  | some found =>
      obtain ⟨before, words, rest⟩ := found
      cases rest with
      | nil => rfl
      | cons c rest =>
          obtain ⟨d, tail, shape, values⟩ := exists_findValue?_normalize c rest
          simp only [Option.map_some, Option.bind_some, shape, values]
          cases findValue? rest with
          | none => rfl
          | some value =>
              simp only [Option.map_some, Option.bind_some, unquote?_normalize, Option.map_map]
              rfl

/-- No `\r\n` stands across an end of a remark. -/
theorem cleanCut_of_find? {text before after : Text} {remark : Remark}
    (found : find? text = some (before, remark, after)) :
    CleanCut before (remark.written ++ after) ∧ CleanCut remark.written after := by
  have whole := eq_append_of_find? found
  unfold find? at found
  split at found
  case h_1 passed words c rest searched =>
    split at found
    case h_1 => cases found
    case h_2 value valued =>
      simp only [Option.map_eq_some_iff, Prod.mk.injEq] at found
      obtain ⟨comment, _, rfl, rfl, rfl⟩ := found
      obtain ⟨tail, split, clean, _⟩ := cleanCut_of_search opening_break searched
      refine ⟨?_, ?_⟩
      · rw [split, List.append_assoc] at whole
        rwa [List.append_cancel_left whole] at clean
      · intro last
        rw [List.getLast?_append, (stands_of_findValue? valued).closes, Option.some_or] at last
        cases last
  case h_2 => cases found

/-- **Remarks ignore the kind of line breaks.** -/
theorem find?_normalize (text : Text) :
    find? text.normalize =
      (find? text).map fun (before, remark, after) =>
        (before.normalize, remark.normalize, after.normalize) := by
  have places := place?_normalize text
  rw [← map_find?, ← map_find?] at places
  cases found : find? text with
  | none =>
      rw [found] at places
      rw [Option.map_eq_none_iff.mp places]
      rfl
  | some parts =>
      obtain ⟨before, remark, after⟩ := parts
      rw [found, Option.map_some, Option.map_some, Option.map_eq_some_iff] at places
      obtain ⟨⟨beforeToo, remarkToo, afterToo⟩, foundToo, same⟩ := places
      simp only [Prod.mk.injEq] at same
      obtain ⟨rfl, comment, rfl⟩ := same
      obtain ⟨clean, cleanToo⟩ := cleanCut_of_find? found
      have whole := eq_append_of_find? foundToo
      rw [eq_append_of_find? found, List.append_assoc, normalize_append clean,
        normalize_append cleanToo, ← List.append_assoc] at whole
      have written := List.append_cancel_left (List.append_cancel_right whole)
      rw [foundToo, Option.map_some]
      simp only [normalize, written, ← comment]

end Remark

end RoutineScripts
