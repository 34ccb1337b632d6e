import RoutineScripts.Proofs.Routine.Exchange
import RoutineScripts.Proofs.Routine.Reader

/-!
# One coherent scan

A script is cut by several scans, each of which starts afresh at the place where the one before
found something, and each of which sees only the statement. All of them agree with a single scan of
the whole text from the header on. What is passed between two of them settles
(`Script.Laid.name`, `Script.Laid.arguments`), so a scan that goes on is in plain text where the
next one starts, and what lies beyond the end of the statement has no part in it.

The main statement is `Definition.ofText?_coherent`. It says where a definition's parts stand in
the list of top-level offsets of that one scan.
-/

namespace RoutineScripts

/-- A body literal starts and ends with a dollar sign or a quote. -/
theorem Literal.Fits.exists_ends {literal : Literal} {rest : Text} (fits : literal.Fits rest) :
    ∃ c, (c = '$' ∨ c = '\'') ∧ (∃ back, literal.written = c :: back) ∧
      ∃ front, literal.written = front ++ [c] := by
  cases literal with
  | dollar tag content =>
      obtain ⟨⟨name, rfl, _⟩, _⟩ := fits
      exact ⟨'$', Or.inl rfl, ⟨_, rfl⟩,
        '$' :: (name ++ ['$']) ++ content ++ '$' :: name, by simp [written]⟩
  | quoted content link =>
      refine ⟨'\'', Or.inr rfl, ⟨_, rfl⟩, ?_⟩
      cases link with
      | none => exact ⟨'\'' :: content, by simp [written, linkText, Text.quote]⟩
      | some pair =>
          obtain ⟨separator, symbol⟩ := pair
          exact ⟨content.quote ++ separator ++ '\'' :: symbol,
            by simp [written, linkText, Text.quote]⟩

/-- A body literal does not end in a semicolon, so a statement that does goes on after it. -/
theorem Literal.Fits.exists_trailing {literal : Literal} {rest head front trailing : Text}
    (fits : literal.Fits rest) (ends : head ++ literal.written ++ trailing = front ++ [';']) :
    ∃ trail, trailing = trail ++ [';'] ∧ front = head ++ literal.written ++ trail := by
  rcases List.eq_nil_or_concat trailing with rfl | ⟨trail, z, rfl⟩
  · obtain ⟨c, isDelimiter, _, inner, last⟩ := fits.exists_ends
    rw [last, List.append_nil, ← List.append_assoc] at ends
    have same := List.append_inj_right' ends rfl
    rcases isDelimiter with rfl | rfl <;> cases same
  · rw [List.concat_eq_append, ← List.append_assoc] at ends
    obtain ⟨same, last⟩ := List.append_inj' ends rfl
    exact ⟨trail, by rw [List.concat_eq_append, last], same.symm⟩

namespace Script

open Text

/-- Byte offset of the parenthesis that opens the argument list. -/
def opening (script : Script) : Nat :=
  (script.before ++ script.header.written ++ script.name).byteLength

/-- Byte offset of the parenthesis that closes the argument list. -/
def closing (script : Script) : Nat :=
  script.opening + 1 + script.arguments.byteLength

/-- Byte offset at which the statement ends. -/
def statementEnd (script : Script) : Nat :=
  script.bodySpan.2 + script.trailing.byteLength

/-- Byte offset at which the text after the definition and its remark starts. -/
def afterStart (script : Script) : Nat :=
  script.statementEnd + ((script.remark.map Remark.written).getD []).byteLength

/-- The text after the argument list. -/
def remainder (script : Script) : Text :=
  script.leading ++ (script.body.written ++ script.epilogue)

/-- A script is the text before it, its header, its name, its argument list and the rest. -/
theorem text_eq (script : Script) :
    script.text = script.before ++ (script.header.written ++ (script.name ++ '(' ::
      (script.arguments ++ ')' :: script.remainder))) := by
  simp [text, prologue, remainder]

/-- The body literal starts and ends at the lengths of what precedes its ends. -/
theorem bodySpan_eq (script : Script) :
    script.bodySpan.1 = (script.before ++ script.header.written ++ script.head).byteLength ∧
      script.bodySpan.2 = (script.before ++ script.header.written ++
        (script.head ++ script.body.written)).byteLength := by
  refine ⟨by rw [bodySpan, prologue_eq], ?_⟩
  rw [bodySpan, prologue_eq, ← List.append_assoc, byteLength_append _ script.body.written]

/-- The statement ends at the length of what precedes its end. -/
theorem statementEnd_eq (script : Script) :
    script.statementEnd =
      (script.before ++ script.header.written ++
        (script.head ++ script.body.written ++ script.trailing)).byteLength := by
  rw [statementEnd, (bodySpan_eq script).2, ← byteLength_append, List.append_assoc]

/-- The parts of a script as a scan of its whole text passes over them. -/
structure Laid (script : Script) : Prop where
  header : script.header.written ≠ [] ∧ ∀ z ∈ Header.marks, z ∉ script.header.written
  name : ∀ rest, splitTopLevel? '(' (script.name ++ '(' :: rest) = some (script.name, rest)
  arguments : ∀ rest,
    splitParens? (script.arguments ++ ')' :: rest) = some (script.arguments, rest)
  keyword : ∃ words gap, script.leading = words ++ gap ∧ (∀ c ∈ gap, isAsciiBlank c = true) ∧
    splitAs? (some ')') 0 script.remainder.scan =
      some (words, gap ++ (script.body.written ++ script.epilogue))
  fits : script.body.Fits script.trailing
  statement : script.remark = none →
    splitTopLevel? ';' (script.head ++ (script.body.written ++ script.epilogue)) =
        none ∧ script.after = [] ∨
      ∃ front, script.head ++ script.body.written ++ script.trailing = front ++ [';'] ∧
        splitTopLevel? ';' (script.head ++ (script.body.written ++ script.epilogue)) =
          some (front, script.after)

/-- The parts of a script that was parsed are laid out in order. -/
theorem laid_of_ofText? {text : Text} {script : Script} (found : ofText? text = some script) :
    Laid script := by
  obtain ⟨tail, statement, named, listed, headed, cut, opened, closed, located⟩ :=
    ofText?_eq_some_iff.mp found
  obtain ⟨words, rest, keyword, leads, read⟩ := Literal.locate?_eq_some_iff.mp located
  have parts := eq_head_append opened closed located
  have whole : tail = script.head ++ (script.body.written ++ script.epilogue) := by
    rw [eq_append_of_cutStatement cut, parts]
    simp [epilogue]
  refine ⟨Header.not_mem_written headed, splitTopLevel?_congr inert_open opened,
    (settles_of_splitParens? closed).2, ?_, Literal.fits_of_read? read, fun noRemark => ?_⟩
  · have shape : rest = rest.takeWhile isAsciiBlank
        ++ (script.body.written ++ script.trailing) := by
      rw [← Literal.eq_append_of_read? read, List.takeWhile_append_dropWhile]
    have more : rest ≠ [] := by
      rintro rfl
      cases read
    have heads : (rest.takeWhile isAsciiBlank ++ (script.body.written ++ script.epilogue)).head? =
        rest.head? := by
      obtain ⟨c, _, ⟨back, first⟩, _⟩ :=
        (Literal.fits_of_read? read : script.body.Fits _).exists_ends
      rw [first] at shape ⊢
      generalize rest.takeWhile isAsciiBlank = gap at shape ⊢
      rw [shape]
      cases gap <;> rfl
    refine ⟨words, rest.takeWhile isAsciiBlank, leads, List.all_eq_true.mp List.all_takeWhile, ?_⟩
    rw [remainder, leads, List.append_assoc]
    exact (settles_of_splitAs? keyword more _ heads).2
  · unfold cutStatement at cut
    split at cut
    case h_1 =>
      have some := congrArg (fun parts => parts.2.1) cut
      rw [noRemark] at some
      cases some
    case h_2 =>
      split at cut
      case h_1 ended after split =>
        simp only [splitStatement?, Option.map_eq_some_iff, Prod.exists, Prod.mk.injEq] at split
        obtain ⟨front, rest, ends, rfl, rfl⟩ := split
        obtain ⟨rfl, same⟩ := Prod.mk.inj cut
        obtain ⟨_, rfl⟩ := Prod.mk.inj same
        exact Or.inr ⟨front, parts.symm, whole ▸ ends⟩
      case h_2 ends =>
        have after := congrArg (fun parts => parts.2.2) cut
        refine Or.inl ⟨?_, after.symm⟩
        rw [splitStatement?, Option.map_eq_none_iff] at ends
        exact whole ▸ ends

namespace Laid

variable {script : Script}

/-- The scan is in plain text after the header. -/
theorem settles_header (laid : Laid script) (rest : Text) :
    Settles script.header.written rest := by
  refine settles_of_plain (fun c member mark => ?_) rest
  exact laid.header.2 c ((by decide : ['-', '/', '$', '\'', '"'] ⊆ Header.marks) mark) member

/-- The scan is in plain text after the name. -/
theorem settles_name (laid : Laid script) (rest : Text) :
    Settles (script.header.written ++ script.name) ('(' :: rest) := by
  obtain ⟨_, settles, _⟩ := (splitTopLevel?_eq_some_iff inert_open).mp (laid.name rest)
  exact (laid.settles_header _).append settles

/-- The scan is in plain text after the arguments. -/
theorem settles_arguments (laid : Laid script) (rest : Text) :
    Settles (script.header.written ++ script.name ++ '(' :: script.arguments) (')' :: rest) := by
  obtain ⟨settles, _⟩ := settles_of_splitParens? (laid.arguments rest)
  have opened : Settles ['('] (script.arguments ++ ')' :: rest) :=
    settles_of_plain (by simp) _
  exact (laid.settles_name _).append (opened.append settles)

/-- The scan is in plain text after the argument list. -/
theorem settles_list (laid : Laid script) (rest : Text) :
    Settles (script.header.written ++ script.name ++ '(' :: script.arguments ++ [')']) rest :=
  (laid.settles_arguments rest).append (settles_of_plain (by simp) rest)

/-- The first parenthesis at top level after the header opens the argument list. -/
theorem findTopLevel?_opening (laid : Laid script) :
    script.text.findTopLevel? '(' script.before.byteLength = some script.opening := by
  have none (rest : Text) := isTopLevelChar_of_not_mem (laid.header.2 '(' (by decide)) rest
  rw [text_eq, findTopLevel?, dropBytes_append]
  simp only [splitTopLevel?_append (laid.settles_header _) (none _), laid.name, Option.map_some]
  simp [opening]

/-- The argument list is closed by the parenthesis that matches its opening one. -/
theorem parenSpan?_opening (laid : Laid script) :
    script.text.parenSpan? script.opening =
      some ⟨script.opening + 1, script.closing, script.closing + 1⟩ := by
  have whole : script.text =
      (script.before ++ script.header.written ++ script.name ++ ['(']) ++
        (script.arguments ++ ')' :: script.remainder) := by
    rw [text_eq]
    simp
  have size : script.opening + 1 =
      (script.before ++ script.header.written ++ script.name ++ ['(']).byteLength := by
    rw [byteLength_append _ ['(']]
    rfl
  rw [parenSpan?, size, whole, dropBytes_append]
  simp only [laid.arguments, Option.map_some, ← size]
  simp [closing]

/-- The opening parenthesis is at top level. -/
theorem opening_mem (laid : Laid script) :
    script.opening ∈ script.text.topLevelPositions script.before.byteLength := by
  have member := mem_topLevelPositions_of_settles script.before (by decide)
    (laid.settles_name (script.arguments ++ ')' :: script.remainder))
  rw [text_eq]
  simpa [opening] using member

/-- The closing parenthesis is at top level. -/
theorem closing_mem (laid : Laid script) :
    script.closing ∈ script.text.topLevelPositions script.before.byteLength := by
  have member := mem_topLevelPositions_of_settles script.before (by decide)
    (laid.settles_arguments script.remainder)
  have size : '('.utf8Size = 1 := rfl
  rw [text_eq]
  simpa [opening, closing, size, Nat.add_assoc] using member

/-- What stands before the text after the argument list. -/
theorem exists_listed (laid : Laid script) :
    ∃ listed, script.text = script.before ++ (listed ++ script.remainder) ∧
      (script.before ++ listed).byteLength = script.closing + 1 ∧
      (script.before ++ listed).getLast? = some ')' ∧ Settles listed script.remainder := by
  refine ⟨script.header.written ++ script.name ++ '(' :: script.arguments ++ [')'], ?_, ?_, ?_,
    laid.settles_list _⟩
  · rw [text_eq]
    simp
  · have sizes : '('.utf8Size = 1 ∧ ')'.utf8Size = 1 := ⟨rfl, rfl⟩
    simp [closing, opening, sizes, Nat.add_assoc]
  · rw [← List.append_assoc, List.getLast?_concat]

/-- The keyword of the body is the first one after the argument list, also for the scan from the
header on. -/
theorem exists_keyword (laid : Laid script) :
    ∃ keyword, script.text.IsFirstBodyKeyword (script.closing + 1) keyword ∧
      keyword ∈ script.text.topLevelPositions script.before.byteLength ∧
      script.closing < keyword ∧ keyword < script.bodySpan.1 ∧
      script.text.skipBlanks (keyword + 2) = script.bodySpan.1 := by
  obtain ⟨listed, whole, size, last, settles⟩ := laid.exists_listed
  obtain ⟨words, gap, leads, blank, found⟩ := laid.keyword
  have left : script.text.dropBytes (script.closing + 1) = (0, script.remainder) := by
    rw [whole, ← List.append_assoc, ← size, dropBytes_append]
  have based : script.text = script.before ++ listed ++ script.remainder := by
    rw [whole, List.append_assoc]
  rw [← last] at found
  obtain ⟨keyword, first, past⟩ := isFirstBodyKeyword_of_splitAs? left based size found
  have start : script.bodySpan.1 = (script.before ++ listed ++ words ++ gap).byteLength := by
    have lead : script.prologue.byteLength = script.closing + 1 + script.leading.byteLength := by
      have sizes : '('.utf8Size = 1 ∧ ')'.utf8Size = 1 := ⟨rfl, rfl⟩
      simp [prologue, closing, opening, sizes, Nat.add_assoc]
    rw [bodySpan, lead, leads, ← size, List.append_assoc, byteLength_append _ (words ++ gap)]
  refine ⟨keyword, first, ?_, ?_, ?_, ?_⟩
  · have member := first.1.1
    rw [whole, topLevelPositions_of_settles settles, ← whole, size]
    exact List.mem_append_right _ member
  · exact le_of_mem_topLevelPositions first.1.1
  · rw [start, byteLength_append _ gap]
    omega
  · obtain ⟨c, isDelimiter, ⟨back, opens⟩, _⟩ := laid.fits.exists_ends
    have visible : isAsciiBlank c = false := by
      rcases isDelimiter with rfl | rfl <;> rfl
    have tail : script.text = script.before ++ listed ++ words ++
        (gap ++ c :: (back ++ script.epilogue)) := by
      rw [based, remainder, leads, opens]
      simp
    rw [past, tail, Literal.skipBlanks_append, List.takeWhile_append_of_pos blank,
      List.takeWhile_cons_of_neg (by simp [visible]), List.append_nil, start]

/-- Without a remark, the first semicolon at top level after the header ends the statement, and the
body literal ends before it. -/
theorem find?_semicolon (laid : Laid script) (noRemark : script.remark = none) :
    let found := (script.text.topLevelPositions script.before.byteLength).find?
      fun place => script.text.charAt? place == some ';'
    (∀ place, found = some place → script.bodySpan.2 ≤ place) ∧
      script.statementEnd = (found.map (· + 1)).getD script.text.byteLength := by
  intro found
  have whole : script.text = script.before ++ (script.header.written ++
      (script.head ++ (script.body.written ++ script.epilogue))) := by
    simp [text, prologue, head]
  have none (rest : Text) := isTopLevelChar_of_not_mem (laid.header.2 ';' (by decide)) rest
  have answer : found =
      (splitTopLevel? ';' (script.head ++ (script.body.written ++ script.epilogue))).map
        fun parts => (script.before ++ script.header.written ++ parts.1).byteLength := by
    have search := findTopLevel?_eq_find? script.before (script.header.written ++
      (script.head ++ (script.body.written ++ script.epilogue))) ';'
    rw [← whole] at search
    rw [show found = _ from search.symm, findTopLevel?, whole, dropBytes_append]
    simp only [splitTopLevel?_append (laid.settles_header _) (none _), Option.map_map]
    congr 1
    funext parts
    simp
  rcases laid.statement noRemark with ⟨missed, nothing⟩ | ⟨front, ends, split⟩
  · rw [missed] at answer
    refine ⟨fun place some => ?_, ?_⟩
    · rw [answer] at some
      cases some
    · rw [answer, statementEnd_eq, whole, epilogue, noRemark, nothing]
      simp
  · rw [split] at answer
    obtain ⟨trail, trails, rfl⟩ := laid.fits.exists_trailing ends
    refine ⟨fun place some => ?_, ?_⟩
    · rw [answer] at some
      obtain rfl := Option.some.inj some
      rw [(bodySpan_eq script).2]
      simp only [byteLength_append]
      omega
    · have size : ';'.utf8Size = 1 := rfl
      rw [answer, statementEnd_eq, trails]
      simp [size, Nat.add_assoc]

end Laid

/-- The parts of a script stand where one scan of its text from the header on finds them.
`keyword` is the byte offset of the keyword of the body. -/
structure Coherent (script : Script) (keyword : Nat) : Prop where
  increasing : script.before.byteLength < script.opening ∧ script.opening < script.closing ∧
    script.closing < keyword ∧ keyword < script.bodySpan.1 ∧
    script.bodySpan.1 < script.bodySpan.2 ∧ script.bodySpan.2 ≤ script.statementEnd ∧
    script.statementEnd ≤ script.afterStart ∧ script.afterStart ≤ script.text.byteLength
  boundaries : ∀ offset ∈ [script.before.byteLength, script.opening, script.closing, keyword,
    script.bodySpan.1, script.bodySpan.2, script.statementEnd, script.afterStart],
    (script.text.splitAtByte? offset).isSome = true
  topLevel : ∀ offset ∈ [script.opening, script.closing, keyword],
    offset ∈ script.text.topLevelPositions script.before.byteLength
  opens : script.text.findTopLevel? '(' script.before.byteLength = some script.opening
  closes : script.text.parenSpan? script.opening =
    some ⟨script.opening + 1, script.closing, script.closing + 1⟩
  introduces : script.text.IsFirstBodyKeyword (script.closing + 1) keyword ∧
    script.text.skipBlanks (keyword + 2) = script.bodySpan.1
  goesOn : script.remark = none →
    ∀ place ∈ script.text.topLevelPositions script.before.byteLength,
      script.text.charAt? place = some ';' → script.bodySpan.2 ≤ place
  ends : script.remark = none → script.statementEnd =
    (((script.text.topLevelPositions script.before.byteLength).find?
      fun place => script.text.charAt? place == some ';').map (· + 1)).getD script.text.byteLength

/-- A text that is not empty takes some bytes. -/
theorem byteLength_pos {text : Text} (nonempty : text ≠ []) : 0 < text.byteLength := by
  obtain ⟨c, rest, rfl⟩ := List.exists_cons_of_ne_nil nonempty
  have size := c.utf8Size_pos
  rw [byteLength_cons]
  omega

/-- What follows a script starts at a boundary. -/
theorem splitAtByte?_afterStart (script : Script) :
    ∃ front, script.text.splitAtByte? script.afterStart = some (front, script.after) := by
  refine ⟨script.prologue ++ script.body.written ++ script.trailing ++
    (script.remark.map Remark.written).getD [], splitAtByte?_eq_some_iff.mpr ⟨?_, ?_⟩⟩
  · simp [text, epilogue]
  · simp [afterStart, statementEnd, bodySpan, Nat.add_assoc]

/-- The length of a front of a text is the offset of a split. -/
theorem isSome_splitAtByte? {front text : Text} (leads : front <+: text) :
    (text.splitAtByte? front.byteLength).isSome = true := by
  obtain ⟨back, rfl⟩ := leads
  rw [splitAtByte?_append]
  rfl

/-- The offsets of the parts of a script are the lengths of fronts of its text. -/
theorem isSome_splitAtByte?_parts (script : Script) :
    ∀ offset ∈ [script.before.byteLength, script.opening, script.closing, script.bodySpan.1,
      script.bodySpan.2, script.statementEnd, script.afterStart],
      (script.text.splitAtByte? offset).isSome = true := by
  have size : '('.utf8Size = 1 := rfl
  have closed : script.closing = (script.before ++ script.header.written ++ script.name ++
      '(' :: script.arguments).byteLength := by
    simp [closing, opening, size, Nat.add_assoc]
  have literal : script.bodySpan.2 = (script.prologue ++ script.body.written).byteLength := by
    rw [bodySpan, byteLength_append]
  have ended : script.statementEnd =
      (script.prologue ++ script.body.written ++ script.trailing).byteLength := by
    rw [statementEnd, literal, byteLength_append _ script.trailing]
  obtain ⟨front, after⟩ := script.splitAtByte?_afterStart
  simp only [List.forall_mem_cons]
  refine ⟨?_, ?_, ?_, ?_, ?_, ?_, ?_, fun _ inside => absurd inside List.not_mem_nil⟩
  · exact isSome_splitAtByte? ⟨_, script.text_eq.symm⟩
  · refine isSome_splitAtByte? ⟨'(' :: (script.arguments ++ ')' :: script.remainder), ?_⟩
    simp [text_eq]
  · rw [closed]
    refine isSome_splitAtByte? ⟨')' :: script.remainder, ?_⟩
    simp [text_eq]
  · refine isSome_splitAtByte? ⟨script.body.written ++ script.epilogue, ?_⟩
    simp [text]
  · rw [literal]
    exact isSome_splitAtByte? ⟨script.epilogue, rfl⟩
  · rw [ended]
    refine isSome_splitAtByte?
      ⟨(script.remark.map Remark.written).getD [] ++ script.after, ?_⟩
    simp [text, epilogue]
  · rw [after]
    rfl

/-- A script whose parts are laid out in order is coherent. -/
theorem Laid.coherent {script : Script} (laid : Laid script) :
    ∃ keyword, script.Coherent keyword := by
  obtain ⟨keyword, first, member, above, below, skips⟩ := laid.exists_keyword
  have headed := byteLength_pos laid.header.1
  have literal : 0 < script.body.written.byteLength := by
    obtain ⟨c, _, ⟨back, shape⟩, _⟩ := laid.fits.exists_ends
    exact byteLength_pos (by simp [shape])
  obtain ⟨front, split⟩ := script.splitAtByte?_afterStart
  obtain ⟨whole, ending⟩ := splitAtByte?_eq_some_iff.mp split
  refine ⟨keyword, ?_, ?_, ?_, laid.findTopLevel?_opening, laid.parenSpan?_opening, ⟨first, skips⟩,
    fun noRemark place topLevel semicolon => ?_, fun noRemark => (laid.find?_semicolon noRemark).2⟩
  · refine ⟨?_, ?_, above, below, ?_, ?_, ?_, ?_⟩
    · simp only [opening, byteLength_append]
      omega
    · rw [closing]
      omega
    · rw [bodySpan]
      omega
    · exact Nat.le_add_right _ _
    · exact Nat.le_add_right _ _
    · rw [whole, byteLength_append, ending]
      exact Nat.le_add_right _ _
  · intro offset member
    by_cases keywordHere : offset = keyword
    · have reads := first.1.2.2
      unfold isKeywordAt at reads
      split at reads
      case h_1 there => rw [keywordHere, there]; rfl
      case h_2 => cases reads
    · refine script.isSome_splitAtByte?_parts offset ?_
      simpa [keywordHere] using member
  · simp only [List.forall_mem_cons]
    exact ⟨laid.opening_mem, laid.closing_mem, member,
      fun _ inside => absurd inside List.not_mem_nil⟩
  · cases found : (script.text.topLevelPositions script.before.byteLength).find?
      fun place => script.text.charAt? place == some ';' with
    | none =>
        have refused := List.find?_eq_none.mp found place topLevel
        simp [semicolon] at refused
    | some first =>
        have earliest := le_of_find? (sorted_topLevelPositions _ _) found topLevel
          (by simp [semicolon])
        exact Nat.le_trans ((laid.find?_semicolon noRemark).1 first found) earliest

end Script

namespace Definition

open Text Script

/-- **One coherent scan.** For a text that has a definition, the offsets of its parts increase and
fall between characters. The parentheses of the argument list and the keyword of the body are at top
level in the one scan from the header on. Without a remark, no semicolon is at top level before the
end of the body, and the statement ends just past the first one, or with the text. -/
theorem ofText?_coherent {text : Text} {definition : Definition}
    (parsed : ofText? text = some definition) :
    definition.script.text = text ∧
      (∃ front, text.splitAtByte? definition.script.afterStart =
        some (front, definition.script.after)) ∧
      definition.after = definition.script.after.trimBlankLines ∧
      ∃ keyword, definition.script.Coherent keyword := by
  obtain ⟨script, found, rfl⟩ := Option.map_eq_some_iff.mp parsed
  have whole : script.text = text := Script.text_of_ofText? found
  refine ⟨whole, ?_, rfl, (laid_of_ofText? found).coherent⟩
  rw [← whole]
  exact script.splitAtByte?_afterStart

/-- A script in which a quoted name, a default value, comments and the body hold parentheses,
semicolons and the keyword of a body away from top level. -/
def guarded : Script where
  before := "/*;*/ ".toList
  header := ⟨.function, "CREATE FUNCTION ".toList⟩
  name := "\"a(b\".f".toList
  arguments := "x numeric(3), y text = ');'".toList
  leading := " -- AS $$\nAS ".toList
  body := .dollar "$a$".toList ";$$)".toList
  trailing := " /* ; */;".toList
  remark := none
  after := "SELECT ';'".toList

/-- A script with delimiters in names, values and comments is coherent. -/
theorem ofText?_coherent_guarded :
    ofText? guarded.text = some (ofScript guarded) ∧ guarded.remark = none ∧
      ∃ keyword, guarded.Coherent keyword := by
  have parsed : ofText? guarded.text = some (ofScript guarded) := by decide +kernel
  obtain ⟨_, _, _, coherent⟩ := ofText?_coherent parsed
  exact ⟨parsed, rfl, coherent⟩

end Definition

end RoutineScripts
