import RoutineScripts.Proofs.Marker.Fingerprint
import RoutineScripts.Proofs.Routine.Characters

/-!
# What a summary tells apart

A summary is a sequence of fields, each ended by a character that a text without U+0000 does not
hold (`Definition.clean_of_ofText?`). So the fields can be read off it one by one
(`Text.flatMap_end_append_inj`). The attributes of a function are one field, in which each value
ends before the comma of the next label (`Text.append_label_inj`).

Two summaries are the same exactly if the definitions declare the same and their bodies have the
same lines without markers (`Definition.Clean.summary_eq_iff`). The bytes that are digested say as
much (`Definition.agrees_of_encode_summary_eq`).
-/

namespace RoutineScripts

namespace Text

/-- Fields are told apart by what ends them. -/
theorem flatMap_end_append_inj {z : Char} {first second : List Text}
    {firstRest secondRest : Text} (lengths : first.length = second.length)
    (firstFree : ∀ field ∈ first, z ∉ field) (secondFree : ∀ field ∈ second, z ∉ field)
    (same : first.flatMap (· ++ [z]) ++ firstRest = second.flatMap (· ++ [z]) ++ secondRest) :
    first = second ∧ firstRest = secondRest := by
  induction first generalizing second with
  | nil =>
      obtain rfl := List.length_eq_zero_iff.mp lengths.symm
      exact ⟨rfl, same⟩
  | cons field first ih =>
      cases second with
      | nil => cases lengths
      | cons other second =>
          obtain ⟨free, others⟩ := List.forall_mem_cons.mp firstFree
          obtain ⟨otherFree, otherOthers⟩ := List.forall_mem_cons.mp secondFree
          simp only [List.flatMap_cons, List.append_assoc, List.cons_append, List.nil_append]
            at same
          obtain ⟨rfl, rest⟩ := append_cons_inj same free otherFree
          obtain ⟨rfl, later⟩ := ih (Nat.succ.inj lengths) others otherOthers rest
          exact ⟨rfl, later⟩

/-- A value ends where a label starts with a comma. -/
theorem append_label_inj {label first second firstRest secondRest : Text}
    (comma : label.head? = some ',') (firstFree : ',' ∉ first) (secondFree : ',' ∉ second)
    (same : first ++ (label ++ firstRest) = second ++ (label ++ secondRest)) :
    first = second ∧ firstRest = secondRest := by
  obtain ⟨rest, rfl⟩ := List.head?_eq_some_iff.mp comma
  obtain ⟨rfl, later⟩ := append_cons_inj same firstFree secondFree
  exact ⟨rfl, List.append_cancel_left later⟩

end Text

/-- Kinds are told by their names. -/
theorem Kind.text_injective {first second : Kind} (same : first.text = second.text) :
    first = second := by
  cases first <;> cases second <;> first | rfl | exact absurd same (by decide)

/-- Truth values are told by their names. -/
theorem boolText_injective {first second : Bool} (same : boolText first = boolText second) :
    first = second := by
  cases first <;> cases second <;> first | rfl | exact absurd same (by decide)

namespace Language

variable {language first second : Language} {name : Text}

/-- A language with a name is a language of its own. -/
theorem eq_userDefined_of_name? (named : language.name? = some name) :
    language = userDefined (some name) := by
  cases language <;> cases named
  rfl

/-- A language without a name is written as its tag. -/
theorem text_of_name?_eq_none (unnamed : language.name? = none) :
    language.text = language.tag := by
  rw [text, unnamed]

/-- A language with a name is written with the name in parentheses. -/
theorem text_of_name?_eq_some (named : language.name? = some name) :
    language.text = "user-defined".toList ++ " (".toList ++ name ++ ")".toList := by
  have word : language.tag = "user-defined".toList := by
    rw [eq_userDefined_of_name? named]
    rfl
  rw [text, named, word]

/-- Languages without names are told by their tags. -/
theorem tag_injective (firstUnnamed : first.name? = none) (secondUnnamed : second.name? = none)
    (same : first.tag = second.tag) : first = second := by
  have listed (language : Language) (unnamed : language.name? = none) :
      language ∈ [sql, c, internal, plpgsql, userDefined none] := by
    cases language <;> cases unnamed <;> decide
  have apart : ∀ left ∈ [sql, c, internal, plpgsql, userDefined none],
      ∀ right ∈ [sql, c, internal, plpgsql, userDefined none],
        left.tag = right.tag → left = right := by decide
  exact apart _ (listed _ firstUnnamed) _ (listed _ secondUnnamed) same

/-- A declared name makes the text of a language longer than every tag. -/
theorem text_ne_of_name? (named : first.name? = some name) (unnamed : second.name? = none) :
    first.text ≠ second.text := by
  intro same
  have short : second.tag.length ≤ "user-defined".toList.length := by
    cases second with
    | userDefined name => exact Nat.le_refl _
    | _ => decide
  have opened : 0 < " (".toList.length := by decide
  have lengths := congrArg List.length same
  rw [text_of_name?_eq_some named, text_of_name?_eq_none unnamed, List.length_append,
    List.length_append, List.length_append] at lengths
  omega

/-- Languages are told by how they are written. -/
theorem text_injective (same : first.text = second.text) : first = second := by
  cases firstNamed : first.name? with
  | none =>
      cases secondNamed : second.name? with
      | none =>
          rw [text_of_name?_eq_none firstNamed, text_of_name?_eq_none secondNamed] at same
          exact tag_injective firstNamed secondNamed same
      | some name => exact absurd same.symm (text_ne_of_name? secondNamed firstNamed)
  | some name =>
      cases secondNamed : second.name? with
      | none => exact absurd same (text_ne_of_name? firstNamed secondNamed)
      | some other =>
          rw [text_of_name?_eq_some firstNamed, text_of_name?_eq_some secondNamed] at same
          rw [eq_userDefined_of_name? firstNamed, eq_userDefined_of_name? secondNamed,
            List.append_cancel_left (List.append_cancel_right same)]

end Language

namespace FunctionAttributes

/-- The numbers in function attributes are made of digits and points. -/
def IsNumeric (attributes : FunctionAttributes) : Prop :=
  ∀ digits, attributes.cost = some digits ∨ attributes.rows = some digits →
    ∀ c ∈ digits, c.isDigit = true ∨ c = '.'

/-- A number is written between quotes. -/
theorem summarizeNumber_some (digits : Text) :
    summarizeNumber (some digits) = "Some(\"".toList ++ digits ++ "\")".toList := rfl

/-- Numbers are told by how they are summarized. -/
theorem summarizeNumber_injective {first second : Option Text}
    (same : summarizeNumber first = summarizeNumber second) : first = second := by
  cases first with
  | none =>
      cases second with
      | none => rfl
      | some digits => cases same
  | some digits =>
      cases second with
      | none => cases same
      | some others =>
          rw [summarizeNumber_some, summarizeNumber_some] at same
          rw [List.append_cancel_left (List.append_cancel_right same)]

/-- Volatilities are told by how they are summarized. -/
theorem summarizeVolatility_injective {first second : Volatility}
    (same : summarizeVolatility first = summarizeVolatility second) : first = second := by
  cases first <;> cases second <;> first | rfl | exact absurd same (by decide)

/-- Modes of parallelism are told by how they are summarized. -/
theorem summarizeParallelism_injective {first second : Parallelism}
    (same : summarizeParallelism first = summarizeParallelism second) : first = second := by
  cases first <;> cases second <;> first | rfl | exact absurd same (by decide)

/-- What a summary writes for numbers holds no character but those of its words, digits and
points. -/
theorem IsNumeric.not_mem_summarizeNumber {attributes : FunctionAttributes}
    (numeric : attributes.IsNumeric) {z : Char} (notDigit : z.isDigit = false) (notPoint : z ≠ '.')
    (outside : z ∉ "Some(\"".toList ++ "\")".toList ++ "None".toList) :
    z ∉ summarizeNumber attributes.cost ∧ z ∉ summarizeNumber attributes.rows := by
  simp only [List.mem_append, not_or] at outside
  obtain ⟨⟨opened, closed⟩, nothing⟩ := outside
  have each {number : Option Text}
      (digits : ∀ digits, number = some digits → ∀ c ∈ digits, c.isDigit = true ∨ c = '.') :
      z ∉ summarizeNumber number := by
    cases number with
    | none => exact nothing
    | some number =>
        rw [summarizeNumber_some, List.mem_append, List.mem_append, not_or, not_or]
        refine ⟨⟨opened, fun member => ?_⟩, closed⟩
        rcases digits number rfl z member with digit | point
        · rw [notDigit] at digit
          cases digit
        · exact notPoint point
  exact ⟨each fun digits found => numeric digits (Or.inl found),
    each fun digits found => numeric digits (Or.inr found)⟩

/-- **Attributes are told apart.** -/
theorem summary_injective {first second : FunctionAttributes} (firstNumeric : first.IsNumeric)
    (secondNumeric : second.IsNumeric) (same : first.summary = second.summary) :
    first = second := by
  have flags (value : Bool) : ',' ∉ boolText value := by cases value <;> decide
  have volatilities (volatility : Volatility) : ',' ∉ summarizeVolatility volatility := by
    cases volatility <;> decide
  obtain ⟨firstCost, firstRows⟩ := firstNumeric.not_mem_summarizeNumber (z := ',') (by decide)
    (by decide) (by decide)
  obtain ⟨secondCost, secondRows⟩ := secondNumeric.not_mem_summarizeNumber (z := ',') (by decide)
    (by decide) (by decide)
  -- The equation of `summary` is not asked for: stating it would evaluate the words.
  delta summary at same
  simp only [List.append_assoc, List.append_cancel_left_eq] at same
  obtain ⟨volatility, same⟩ :=
    Text.append_label_inj (by decide) (volatilities _) (volatilities _) same
  obtain ⟨leakproof, same⟩ := Text.append_label_inj (by decide) (flags _) (flags _) same
  obtain ⟨strict, same⟩ := Text.append_label_inj (by decide) (flags _) (flags _) same
  obtain ⟨cost, same⟩ := Text.append_label_inj (by decide) firstCost secondCost same
  obtain ⟨rows, same⟩ := Text.append_label_inj (by decide) firstRows secondRows same
  obtain ⟨window, same⟩ := Text.append_label_inj (by decide) (flags _) (flags _) same
  have parallel := List.append_cancel_right same
  cases first
  cases second
  simp only [mk.injEq]
  exact ⟨summarizeVolatility_injective volatility, boolText_injective leakproof,
    boolText_injective strict, summarizeNumber_injective cost, summarizeNumber_injective rows,
    boolText_injective window, summarizeParallelism_injective parallel⟩

/-- A summary of attributes does not end a field. -/
theorem IsNumeric.fieldEnd_not_mem_summary {attributes : FunctionAttributes}
    (numeric : attributes.IsNumeric) : Definition.fieldEnd ∉ attributes.summary := by
  have flags (value : Bool) : Definition.fieldEnd ∉ boolText value := by cases value <;> decide
  have volatility : Definition.fieldEnd ∉ summarizeVolatility attributes.volatility := by
    cases attributes.volatility <;> decide
  have parallel : Definition.fieldEnd ∉ summarizeParallelism attributes.parallel := by
    cases attributes.parallel <;> decide
  obtain ⟨cost, rows⟩ := numeric.not_mem_summarizeNumber (z := Definition.fieldEnd) (by decide)
    (by decide) (by decide)
  delta summary
  simp only [List.mem_append, not_or, volatility, flags, cost, rows, parallel, not_false_eq_true,
    and_true]
  decide

end FunctionAttributes

namespace Definition

open Text

/-- What a summary says of a definition can be told apart: no field holds the end of a field, and
the numbers are numbers. -/
structure Clean (definition : Definition) : Prop where
  lacks : definition.Lacks fieldEnd
  numeric : ∀ attributes, definition.attributes.function? = some attributes → attributes.IsNumeric

/-- Definitions that say the same of a routine, apart from its body. An empty comment says as much
as none. -/
structure Declares (first second : Definition) : Prop where
  kind : first.kind = second.kind
  name : first.name.qualified = second.name.qualified
  arguments : first.arguments = second.arguments
  returns : first.returns = second.returns
  language : first.language = second.language
  securityDefiner : first.securityDefiner = second.securityDefiner
  attributes : first.attributes = second.attributes
  comment : first.comment.getD [] = second.comment.getD []

/-- Definitions that a summary does not tell apart. -/
structure Agrees (first second : Definition) : Prop extends Declares first second where
  lines : first.plainLines = second.plainLines

/-- Definitions from texts without U+0000 are clean. -/
theorem clean_of_ofText? {text : Text} {definition : Definition}
    (parsed : ofText? text = some definition) (free : fieldEnd ∉ text) : definition.Clean := by
  refine ⟨lacks_of_ofText? parsed free (by decide), fun attributes found => ?_⟩
  obtain ⟨script, _, rfl⟩ := Option.map_eq_some_iff.mp parsed
  simp only [ofScript, Options.attributes] at found
  split at found
  case h_2 => cases found
  case h_1 =>
    cases found
    rintro digits (cost | rows)
    · exact Options.isDigit_or_of_numberIn cost
    · exact Options.isDigit_or_of_numberIn rows

variable {first second definition : Definition}

/-- The language of a clean definition does not hold the end of a field. -/
theorem Clean.fieldEnd_not_mem_language (clean : definition.Clean) :
    fieldEnd ∉ definition.language.text := by
  have tags (language : Language) : fieldEnd ∉ language.tag := by
    cases language with
    | userDefined name => exact (by decide : fieldEnd ∉ "user-defined".toList)
    | _ => decide
  cases named : definition.language.name? with
  | none =>
      rw [Language.text_of_name?_eq_none named]
      exact tags _
  | some name =>
      rw [Language.text_of_name?_eq_some named]
      simp only [List.mem_append, not_or]
      exact ⟨⟨⟨by decide, by decide⟩, clean.lacks.language name named⟩, by decide⟩

/-- The attributes of a clean definition do not hold the end of a field. -/
theorem Clean.fieldEnd_not_mem_attributes (clean : definition.Clean) :
    fieldEnd ∉ (definition.attributes.function?.map FunctionAttributes.summary).getD [] := by
  cases found : definition.attributes.function? with
  | none => exact List.not_mem_nil
  | some attributes => exact (clean.numeric attributes found).fieldEnd_not_mem_summary

/-- No field of a clean definition holds the end of a field. -/
theorem Clean.fieldEnd_not_mem_summaryFields (clean : definition.Clean) :
    ∀ field ∈ definition.summaryFields, fieldEnd ∉ field := by
  have kind : fieldEnd ∉ definition.kind.text := by cases definition.kind <;> decide
  have securityDefiner : fieldEnd ∉ boolText definition.securityDefiner := by
    cases definition.securityDefiner <;> decide
  simp only [summaryFields, List.forall_mem_cons]
  exact ⟨kind, clean.lacks.name, clean.lacks.arguments, clean.lacks.returns,
    clean.fieldEnd_not_mem_language, clean.fieldEnd_not_mem_attributes, securityDefiner,
    fun _ member => absurd member List.not_mem_nil⟩

/-- The lines of a clean definition do not hold the end of a field. -/
theorem Clean.fieldEnd_not_mem_plainLines (clean : definition.Clean) :
    fieldEnd ∉ definition.plainLines.flatMap (· ++ ['\n']) := by
  intro member
  obtain ⟨line, inside, shown⟩ := List.mem_flatMap.mp member
  rcases List.mem_append.mp shown with inLine | feed
  · have whole := subset_of_mem_lines (List.mem_filter.mp inside).1 inLine
    exact (mem_of_mem_normalize whole).elim clean.lacks.body (by decide)
  · exact absurd feed (by decide)

/-- A line that is hashed holds no line feed. -/
theorem newline_not_mem_of_mem_plainLines {line : Text} (member : line ∈ definition.plainLines) :
    '\n' ∉ line :=
  newline_not_mem_of_mem_lines (List.mem_filter.mp member).1

/-- The attributes of clean definitions of one kind are told by their summaries. -/
theorem Clean.attributes_eq (firstClean : first.Clean) (secondClean : second.Clean)
    (kind : first.kind = second.kind)
    (same : (first.attributes.function?.map FunctionAttributes.summary).getD [] =
      (second.attributes.function?.map FunctionAttributes.summary).getD []) :
    first.attributes = second.attributes := by
  have firstNumeric := firstClean.numeric
  have secondNumeric := secondClean.numeric
  rw [Definition.kind, Definition.kind] at kind
  cases firstShape : first.attributes with
  | procedure =>
      rw [firstShape] at kind
      cases secondShape : second.attributes with
      | procedure => rfl
      | function attributes =>
          rw [secondShape] at kind
          cases kind
  | function attributes =>
      rw [firstShape] at kind same firstNumeric
      cases secondShape : second.attributes with
      | procedure =>
          rw [secondShape] at kind
          cases kind
      | function others =>
          rw [secondShape] at same secondNumeric
          rw [FunctionAttributes.summary_injective (firstNumeric _ rfl) (secondNumeric _ rfl) same]

/-- **What a summary tells apart.** Clean definitions have the same summary when they agree. -/
theorem Clean.summary_eq_iff (firstClean : first.Clean) (secondClean : second.Clean) :
    first.summary = second.summary ↔ first.Agrees second := by
  constructor
  · intro same
    simp only [summary, List.append_assoc] at same
    obtain ⟨fields, body⟩ := flatMap_end_append_inj (by rfl)
      firstClean.fieldEnd_not_mem_summaryFields secondClean.fieldEnd_not_mem_summaryFields same
    obtain ⟨lines, comment⟩ := append_cons_inj body
      firstClean.fieldEnd_not_mem_plainLines secondClean.fieldEnd_not_mem_plainLines
    simp only [summaryFields, List.cons.injEq, and_true] at fields
    obtain ⟨kind, name, arguments, returns, language, attributes, securityDefiner⟩ := fields
    have sameKind := Kind.text_injective kind
    exact
      { kind := sameKind
        name
        arguments
        returns
        language := Language.text_injective language
        securityDefiner := boolText_injective securityDefiner
        attributes := firstClean.attributes_eq secondClean sameKind attributes
        lines := flatMap_newline_inj (fun _ => newline_not_mem_of_mem_plainLines)
          (fun _ => newline_not_mem_of_mem_plainLines) lines
        comment }
  · intro agrees
    rw [summary, summary, summaryFields, summaryFields, agrees.kind, agrees.name, agrees.arguments,
      agrees.returns, agrees.language, agrees.securityDefiner, agrees.attributes, agrees.lines,
      agrees.comment]

/-- **Digests of different definitions.** Let two texts without U+0000 define routines. If the same
bytes are digested for both, the definitions agree on everything that a change can show in. -/
theorem agrees_of_encode_summary_eq {firstText secondText : Text}
    (firstParsed : ofText? firstText = some first) (secondParsed : ofText? secondText = some second)
    (firstFree : '\x00' ∉ firstText) (secondFree : '\x00' ∉ secondText)
    (same : Utf8.encode first.summary = Utf8.encode second.summary) : first.Agrees second :=
  ((clean_of_ofText? firstParsed firstFree).summary_eq_iff
    (clean_of_ofText? secondParsed secondFree)).mp (Utf8.encode_injective same)

/-- A routine, and the same routine with a marker, other line breaks and an empty comment. -/
theorem agrees_of_encode_summary_eq_marked :
    let plain := "CREATE FUNCTION f() LANGUAGE sql AS $$\n1$$".toList
    let marked := ("CREATE FUNCTION f() AS $$\r\n-- @GUID " ++
      "\x7b9968C379-A8C4-4D5A-9F23-4F79E7C3B5E9\x7d\r\n1$$ LANGUAGE sql; " ++
      "COMMENT ON FUNCTION f() IS '';").toList
    ∃ first second, ofText? plain = some first ∧ ofText? marked = some second ∧
      first.comment = none ∧ second.comment = some [] ∧
      Utf8.encode first.summary = Utf8.encode second.summary ∧ first.Agrees second := by
  intro plain marked
  have facts : (ofText? plain).map (fun definition => (definition.comment, definition.summary)) =
        (ofText? marked).map (fun definition => (none, definition.summary)) ∧
      (ofText? marked).map comment = some (some []) := by decide +kernel
  obtain ⟨second, secondParsed, commented⟩ := Option.map_eq_some_iff.mp facts.2
  obtain ⟨first, firstParsed, parts⟩ := Option.map_eq_some_iff.mp (by
    rw [facts.1, secondParsed]
    exact Option.map_some ..)
  obtain ⟨uncommented, same⟩ := Prod.mk.inj parts
  have bytes := congrArg Utf8.encode same
  exact ⟨first, second, firstParsed, secondParsed, uncommented, commented, bytes,
    agrees_of_encode_summary_eq firstParsed secondParsed (by decide +kernel) (by decide +kernel)
      bytes⟩

end Definition

end RoutineScripts
