import RoutineScripts.Proofs.Guid
import RoutineScripts.Proofs.Marker.Edit

/-!
# Marking twice

A text that was marked is marked again with the same identifier. Nothing changes the second time,
with one exception (`Marker.ensure_ensure_eq_iff`): when a marker line was inserted below a line
that opens a marker and does not close it, the second pass takes everything from that line up to
the brace of the inserted marker for one marker, and replaces it (`Marker.Swallows`).
-/

namespace RoutineScripts

namespace Text

/-- Inside the middle part of a text, places are counted from its start. -/
theorem getElem?_middle (left middle right : Text) {place : Nat} (inside : place < middle.length) :
    (left ++ middle ++ right)[left.length + place]? = middle[place]? := by
  rw [List.append_assoc, List.getElem?_append_right (Nat.le_add_right _ _), Nat.add_sub_cancel_left,
    List.getElem?_append_left inside]

/-- An occurrence of a tag stands before or after a part that holds no `$` and something other than
identifier characters. -/
theorem occurs_beside {tag before new rest front back : Text} (isTag : IsDollarTag tag)
    (undelimited : '$' ∉ new) (separates : ∃ c ∈ new, isIdentifierChar c = false)
    (split : before ++ new ++ rest = front ++ tag ++ back) :
    (∃ more, before = front ++ tag ++ more) ∨
      ∃ later, front = before ++ new ++ later ∧ rest = later ++ tag ++ back := by
  by_cases ahead : (front ++ tag).length ≤ before.length
  · obtain ⟨more, shape⟩ : front ++ tag <+: before :=
      List.prefix_of_prefix_length_le ⟨back, split.symm⟩ ⟨new ++ rest, by simp⟩ ahead
    exact Or.inl ⟨more, shape.symm⟩
  by_cases behind : (before ++ new).length ≤ front.length
  · obtain ⟨later, rfl⟩ : before ++ new <+: front :=
      List.prefix_of_prefix_length_le ⟨rest, split⟩ ⟨tag ++ back, by simp⟩ behind
    exact Or.inr ⟨later, rfl, by simpa using split⟩
  -- The tag overlaps `new`. Neither of its ends lies there, so it covers the separator.
  exfalso
  have outside (place : Nat) (inTag : tag[place]? = some '$') (bound : place < tag.length) :
      front.length + place < before.length ∨ (before ++ new).length ≤ front.length + place := by
    by_cases lower : before.length ≤ front.length + place
    · refine Or.inr (Nat.le_of_not_lt fun upper => undelimited ?_)
      obtain ⟨offset, shape⟩ := Nat.exists_eq_add_of_le lower
      have inNew := getElem?_middle before new rest
        (show offset < new.length by rw [List.length_append] at upper; omega)
      rw [split, ← shape, getElem?_middle front tag back bound, inTag] at inNew
      exact List.mem_of_getElem? inNew.symm
    · exact Or.inl (Nat.lt_of_not_le lower)
  obtain ⟨name, rfl, identifier⟩ := isTag
  have starts := outside 0 rfl (by simp)
  have ends := outside (name.length + 1) (by simp) (by simp)
  obtain ⟨separator, member, separated⟩ := separates
  obtain ⟨offset, bound, found⟩ := List.mem_iff_getElem.mp member
  simp only [List.length_append, List.length_cons, List.length_nil] at ahead behind starts ends
  obtain ⟨place, shape⟩ := Nat.exists_eq_add_of_le
    (show front.length ≤ before.length + offset by omega)
  have inTag := getElem?_middle front ('$' :: (name ++ ['$'])) back
    (show place < ('$' :: (name ++ ['$'])).length by simp; omega)
  rw [← split, ← shape, getElem?_middle before new rest bound, List.getElem?_eq_getElem bound,
    found] at inTag
  have covered := List.mem_of_getElem? inTag.symm
  simp only [List.mem_cons, List.mem_append, List.not_mem_nil, or_false] at covered
  rcases covered with rfl | inName | rfl
  · exact undelimited member
  · rw [identifier _ inName] at separated
    cases separated
  · exact undelimited member

/-- Such a part can take the place of any part of a dollar-quoted content without closing the
literal early. -/
theorem FirstAfter.edit {tag before old new after : Text} (isTag : IsDollarTag tag)
    (first : FirstAfter tag (before ++ old ++ after) (before ++ old ++ after ++ tag))
    (undelimited : '$' ∉ new) (separates : ∃ c ∈ new, isIdentifierChar c = false) :
    FirstAfter tag (before ++ new ++ after) (before ++ new ++ after ++ tag) := by
  have positive := List.length_pos_iff.mpr isTag.ne_nil
  intro front back split
  rw [List.append_assoc (before ++ new)] at split
  rcases occurs_beside isTag undelimited separates split with ⟨more, rfl⟩ | ⟨later, rfl, tail⟩
  · have long := first front (more ++ old ++ after ++ tag) (by simp)
    simp only [List.length_append] at long
    omega
  · have long := first (before ++ old ++ later) back (by simp [tail])
    simp only [List.length_append] at long ⊢
    omega

end Text

namespace Marker

open Recogniser Text

/-- A line of `above` opens a marker at `passed` that is not closed in `above`. -/
structure OpensAt (above passed start opening inside : Text) : Prop where
  split : above = passed ++ start ++ opening ++ inside
  startsLine : startsLine passed.getLast? = true
  isLead : IsLead start
  isOpening : IsOpening opening
  unclosed : '}' ∉ inside

/-- A line of `above` opens a marker that is not closed in `above`. -/
def LeavesOpen (above : Text) : Prop :=
  ∃ passed start opening inside, OpensAt above passed start opening inside

/-- The first visible character of a text is there and is no opening brace. -/
def ShowsOther (text : Text) : Prop :=
  ∃ gap c rest, text = gap ++ c :: rest ∧ (∀ d ∈ gap, isBlank d = true) ∧ isBlank c = false ∧
    c ≠ '{'

/-- A text that shows something else does not lead to an opening brace. -/
theorem showsOther_ne {text gap rest : Text} (shows : ShowsOther text)
    (blank : ∀ c ∈ gap, isBlank c = true) : text ≠ gap ++ '{' :: rest := by
  obtain ⟨indent, c, tail, rfl, indented, visible, other⟩ := shows
  intro same
  have first := congrArg (List.dropWhile isBlank) same
  rw [List.dropWhile_append_of_pos indented, List.dropWhile_append_of_pos blank,
    List.dropWhile_cons, if_neg (by rw [visible]; decide), List.dropWhile_cons,
    if_neg (by decide)] at first
  exact other (List.cons.inj first).1

/-- A lead holds only indentation and dashes. -/
theorem not_mem_of_isLead {z : Char} {start : Text} (isLead : IsLead start)
    (outside : isIndent z = false) (noDash : z ≠ '-') : z ∉ start := by
  have plain {text : Text} (indented : ∀ c ∈ text, isIndent c = true) : z ∉ text := by
    intro member
    rw [indented z member] at outside
    cases outside
  obtain ⟨indent, indented, rfl | ⟨inner, rfl, within⟩⟩ := isLead
  · exact plain indented
  · simp only [List.mem_append, List.mem_cons, not_or]
    exact ⟨plain indented, noDash, noDash, plain within⟩

/-- The opening of a marker holds no closing brace. -/
theorem IsOpening.brace_not_mem {opening : Text} (isOpening : IsOpening opening) :
    '}' ∉ opening := by
  obtain ⟨word, gap, rfl, spells, blank⟩ := isOpening
  simp only [List.mem_append, List.mem_singleton, not_or]
  refine ⟨⟨not_mem_of_spells (by decide) spells, fun member => ?_⟩, by decide⟩
  exact absurd (blank _ member) (by decide)

/-- A line whose first visible character is no brace cannot continue the opening of a marker from
an earlier line. -/
theorem opening_within {above below passed start opening rest : Text}
    (ends : startsLine above.getLast? = true) (shows : ShowsOther below)
    (split : above ++ below = passed ++ start ++ opening ++ rest)
    (earlier : passed.length < above.length) (isLead : IsLead start)
    (isOpening : IsOpening opening) :
    ∃ inside, above = passed ++ start ++ opening ++ inside ∧ rest = inside ++ below := by
  by_cases within : (passed ++ start ++ opening).length ≤ above.length
  · obtain ⟨inside, rfl⟩ : passed ++ start ++ opening <+: above :=
      List.prefix_of_prefix_length_le ⟨rest, split.symm⟩ ⟨below, rfl⟩ within
    exact ⟨inside, rfl, by simpa using split.symm⟩
  · exfalso
    obtain ⟨word, gap, rfl, spells, blank⟩ := isOpening
    obtain ⟨front, rfl⟩ : ∃ front, above = front ++ ['\n'] := by
      cases last : above.getLast? with
      | none =>
          rw [List.getLast?_eq_none_iff.mp last] at earlier
          simp at earlier
      | some c =>
          rw [last] at ends
          obtain rfl : c = '\n' := by simpa [Marker.startsLine] using ends
          exact List.getLast?_eq_some_iff.mp last
    simp only [List.length_append, List.length_singleton] at earlier within
    have shape : passed ++ (start ++ (word ++ gap ++ ['{']) ++ rest) = front ++ '\n' :: below := by
      simpa using split.symm
    obtain ⟨between, rfl⟩ : passed <+: front :=
      List.prefix_of_prefix_length_le ⟨_, shape⟩ (List.prefix_append _ _)
        (Nat.le_of_lt_succ earlier)
    -- The line break before `below` is none of the lead or the word, so it is in the gap.
    have unbroken : '\n' ∉ start ++ word := by
      rw [List.mem_append, not_or]
      exact ⟨not_mem_of_isLead isLead (by decide) (by decide),
        not_mem_of_spells (by decide) spells⟩
    obtain ⟨blanks, rfl, tail⟩ := exists_append_of_not_mem
      (show between ++ '\n' :: below = start ++ word ++ (gap ++ '{' :: rest) by simpa using split)
      unbroken
    obtain ⟨spaces, rfl⟩ : blanks <+: gap := by
      refine List.prefix_of_prefix_length_le ⟨_, tail.symm⟩ (List.prefix_append _ _) ?_
      simp only [List.length_append] at within
      omega
    have follows : '\n' :: below = spaces ++ '{' :: rest := by simpa using tail.symm
    cases spaces with
    | nil => cases follows
    | cons c spaces =>
        obtain ⟨rfl, same⟩ := List.cons.inj follows
        exact showsOther_ne shows (fun d member => blank d (by simp [member])) same

/-- **Markers from an earlier line.** A marker that starts above a line of another kind is closed
above it, or it is left open above and closed by the first brace from there on. -/
theorem MarksLine.above_or_opensAt {above below passed start found after : Text}
    (marks : MarksLine (above ++ below) passed start found after)
    (ends : Marker.startsLine above.getLast? = true) (shows : ShowsOther below)
    (earlier : passed.length < above.length) :
    (∃ rest, above = passed ++ start ++ found ++ rest) ∨
      ∃ opening inside closing, OpensAt above passed start opening inside ∧
        found = opening ++ inside ++ closing ++ ['}'] ∧ below = closing ++ '}' :: after ∧
        '}' ∉ closing := by
  obtain ⟨opening, content, rfl, isOpening, _, absent⟩ := marks.isMarker
  have split : above ++ below = passed ++ start ++ opening ++ (content ++ '}' :: after) := by
    rw [marks.split]
    simp
  obtain ⟨inside, rfl, shape⟩ := opening_within ends shows split earlier marks.isLead isOpening
  by_cases closed : '}' ∈ inside
  · obtain ⟨front, rest, rfl, free⟩ := List.eq_append_cons_of_mem closed
    obtain ⟨rfl, _⟩ := append_cons_inj (shape.trans (by simp : _ = front ++ '}' :: (rest ++ below)))
      absent free
    exact Or.inl ⟨rest, by simp⟩
  · obtain ⟨closing, rfl, rfl⟩ := exists_append_of_not_mem shape closed
    rw [List.mem_append, not_or] at absent
    exact Or.inr ⟨opening, inside, closing,
      ⟨rfl, marks.startsLine, marks.isLead, isOpening, closed⟩, by simp, rfl, absent.2⟩

/-- A line that opens a marker starts before the end of the text. -/
theorem OpensAt.length_lt {above passed start opening inside : Text}
    (opens : OpensAt above passed start opening inside) : passed.length < above.length := by
  obtain ⟨tail, shape⟩ := opens.isOpening.eq_cons
  rw [opens.split, shape]
  simp only [List.length_append, List.length_cons]
  omega

/-- A marker that is left open is closed by the next brace. -/
theorem OpensAt.marksLine {above passed start opening inside closing after : Text}
    (opens : OpensAt above passed start opening inside) (nonempty : closing ≠ [])
    (absent : '}' ∉ closing) :
    MarksLine (above ++ (closing ++ '}' :: after)) passed start
      (opening ++ (inside ++ closing) ++ ['}']) after where
  split := by rw [opens.split]; simp
  startsLine := opens.startsLine
  isLead := opens.isLead
  isMarker := ⟨opening, inside ++ closing, rfl, opens.isOpening, by simp [nonempty], by
    rw [List.mem_append, not_or]
    exact ⟨opens.unclosed, absent⟩⟩

/-- Indentation is white space. -/
theorem isBlank_of_isIndent {c : Char} (indents : isIndent c = true) : isBlank c = true := by
  rcases (Bool.or_eq_true_iff.mp indents) with space | tab
  · rw [beq_iff_eq.mp space]
    decide
  · rw [beq_iff_eq.mp tab]
    decide

/-- A lead before `@` shows no opening brace. -/
theorem IsLead.showsOther {start : Text} (isLead : IsLead start) (rest : Text) :
    ShowsOther (start ++ '@' :: rest) := by
  obtain ⟨indent, indented, rfl | ⟨inner, rfl, _⟩⟩ := isLead
  · exact ⟨start, '@', rest, rfl, fun c member => isBlank_of_isIndent (indented c member),
      by decide, by decide⟩
  · exact ⟨indent, '-', '-' :: inner ++ '@' :: rest, by simp,
      fun c member => isBlank_of_isIndent (indented c member), by decide, by decide⟩

/-- The token is the word, the opening brace, the identifier and the closing brace. -/
theorem token_eq (guid : Guid) : token guid = "@GUID ".toList ++ ('{' :: guid.text ++ ['}']) := rfl

/-- The marker line is a comment with the token and a notice. -/
theorem line_eq (guid : Guid) :
    line guid = "-- ".toList ++ token guid ++ " - ".toList ++ notice := rfl

/-- The token is a marker. -/
theorem isMarker_token (guid : Guid) : IsMarker (token guid) := by
  refine ⟨"@GUID ".toList ++ ['{'], guid.text, ?_, ⟨"@GUID".toList, [' '], rfl, ?_, ?_⟩,
    guid.text_ne_nil, fun member => ?_⟩
  · rw [token_eq, List.append_assoc, List.append_assoc]
    rfl
  · exact ⟨rfl, rfl, rfl, rfl, rfl, trivial⟩
  · exact List.forall_mem_singleton.mpr (by decide)
  · exact absurd (guid.mem_alphabet_of_mem member) (by decide)

/-- A marker that was put in the place of another one is found in its place. -/
theorem FirstMarker.again {body before found after : Text}
    (first : FirstMarker body before found after) (guid : Guid) :
    FirstMarker (before ++ token guid ++ after) before (token guid) after := by
  obtain ⟨passed, start, rfl, marks, least⟩ := first
  obtain ⟨tail, isToken⟩ := (isMarker_token guid).eq_cons
  refine ⟨passed, start, rfl, ⟨rfl, marks.startsLine, marks.isLead, isMarker_token guid⟩, ?_⟩
  intro otherPassed otherStart otherFound otherAfter other
  apply Nat.le_of_not_lt
  intro earlier
  have shows : ShowsOther (start ++ (token guid ++ after)) := by
    rw [isToken]
    exact marks.isLead.showsOther _
  rw [List.append_assoc, List.append_assoc] at other
  rcases other.above_or_opensAt marks.startsLine shows earlier with
    ⟨rest, shape⟩ | ⟨opening, inside, closing, opens, _⟩
  · have later := least otherPassed otherStart otherFound (rest ++ start ++ found ++ after)
      ⟨by rw [marks.split, shape]; simp, other.startsLine, other.isLead, other.isMarker⟩
    omega
  · obtain ⟨word, content, rfl, isOpening, nonempty, absent⟩ := marks.isMarker
    have unclosed : '}' ∉ start ++ word ++ content := by
      simp only [List.mem_append, not_or]
      exact ⟨⟨not_mem_of_isLead marks.isLead (by decide) (by decide), isOpening.brace_not_mem⟩,
        absent⟩
    have marked : MarksLine (passed ++ (start ++ word ++ content ++ '}' :: after)) otherPassed
        otherStart (opening ++ (inside ++ (start ++ word ++ content)) ++ ['}']) after :=
      opens.marksLine (by simp [nonempty]) unclosed
    have later := least otherPassed otherStart _ after
      ⟨by rw [marks.split]; simpa using marked.split, marked.startsLine, marked.isLead,
        marked.isMarker⟩
    omega

/-- What every insertion has in common: at the start of a line, or after a line break of its own, it
puts an indented marker line. -/
structure Inserts (guid : Guid) (before new lineBreak indent : Text) : Prop where
  shape : new = lineBreak ++ indent ++ line guid ++ ['\n']
  breaks : lineBreak = [] ∨ lineBreak = ['\n']
  indented : ∀ c ∈ indent, isIndent c = true
  startsLine : startsLine (before ++ lineBreak).getLast? = true

section

variable {guid : Guid} {plpgsql : Bool} {body before old new after lineBreak indent : Text}

/-- An edit replaces a marker or inserts a line, and for another identifier it does the same. Only
at the end of the body does an inserted line come with a line break of its own. -/
theorem Edit.renew (edit : Edit guid plpgsql body before old new after) (other : Guid) :
    FirstMarker body before old after ∧ new = token guid ∨
      Unmarked body ∧ old = [] ∧ ∃ lineBreak indent, Inserts guid before new lineBreak indent ∧
        (lineBreak = [] ∨ after = []) ∧
        Edit other plpgsql body before [] (lineBreak ++ indent ++ line other ++ ['\n']) after := by
  have nothing : ∀ c ∈ ([] : Text), isIndent c = true :=
    fun c member => absurd member List.not_mem_nil
  cases edit with
  | replacement first => exact Or.inl ⟨first, rfl⟩
  | belowBegin unmarked declared first sameLine =>
      refine Or.inr ⟨unmarked, rfl, [], after.takeWhile isIndent, ⟨by simp, Or.inl rfl, ?_,
        by simp [Marker.startsLine]⟩, Or.inl rfl, .belowBegin unmarked declared first sameLine⟩
      exact List.all_eq_true.mp List.all_takeWhile
  | belowLastLine unmarked declared first sameLine =>
      exact Or.inr ⟨unmarked, rfl, ['\n'], [], ⟨by simp, Or.inr rfl, nothing,
        by simp [Marker.startsLine]⟩, Or.inr rfl, .belowLastLine unmarked declared first sameLine⟩
  | belowOpening unmarked undeclared split sameLine =>
      exact Or.inr ⟨unmarked, rfl, [], [], ⟨by simp, Or.inl rfl, nothing,
        by simp [Marker.startsLine]⟩, Or.inl rfl, .belowOpening unmarked undeclared split sameLine⟩
  | atStart unmarked undeclared unbroken =>
      exact Or.inr ⟨unmarked, rfl, [], [], ⟨by simp, Or.inl rfl, nothing, rfl⟩,
        Or.inl rfl, .atStart unmarked undeclared unbroken⟩

/-- An edit replaces the first marker, or it inserts a line where there is none. -/
theorem Edit.replaces_or_inserts (edit : Edit guid plpgsql body before old new after) :
    FirstMarker body before old after ∧ new = token guid ∨
      Unmarked body ∧ old = [] ∧ ∃ lineBreak indent, Inserts guid before new lineBreak indent := by
  rcases edit.renew guid with replaces | ⟨unmarked, nothing, lineBreak, indent, inserts, _⟩
  · exact Or.inl replaces
  · exact Or.inr ⟨unmarked, nothing, lineBreak, indent, inserts⟩

/-- The text from the inserted line on, up to the brace that closes its marker. -/
def closing (guid : Guid) (indent : Text) : Text :=
  indent ++ "-- ".toList ++ "@GUID ".toList ++ '{' :: guid.text

/-- The text after the brace of an inserted marker. -/
def trailer (after : Text) : Text :=
  " - ".toList ++ notice ++ '\n' :: after

/-- The text with an inserted line is split at the brace that closes its marker. -/
theorem Inserts.split (inserts : Inserts guid before new lineBreak indent) (after : Text) :
    before ++ new ++ after =
      before ++ lineBreak ++ (closing guid indent ++ '}' :: trailer after) := by
  simp only [inserts.shape, closing, trailer, line_eq, token_eq, List.append_assoc]
  rfl

/-- Indentation and two dashes are a lead. -/
theorem Inserts.isLead (inserts : Inserts guid before new lineBreak indent) :
    IsLead (indent ++ "-- ".toList) :=
  ⟨indent, inserts.indented, Or.inr ⟨[' '], rfl, List.forall_mem_singleton.mpr (by decide)⟩⟩

/-- Before its last character, an inserted marker holds no closing brace. -/
theorem Inserts.brace_not_mem (inserts : Inserts guid before new lineBreak indent) :
    '}' ∉ closing guid indent := by
  simp only [closing, List.mem_append, List.mem_cons, not_or]
  refine ⟨⟨⟨fun member => ?_, by decide⟩, by decide⟩, by decide, fun member => ?_⟩
  · exact absurd (inserts.indented _ member) (by decide)
  · exact absurd (guid.mem_alphabet_of_mem member) (by decide)

/-- The line break that may be inserted holds no other character. -/
theorem Inserts.not_mem_lineBreak (inserts : Inserts guid before new lineBreak indent) {z : Char}
    (differs : z ≠ '\n') : z ∉ lineBreak := by
  rcases inserts.breaks with rfl | rfl
  · exact List.not_mem_nil
  · simpa using differs

/-- The inserted line starts with the marker. -/
theorem Inserts.marksLine (inserts : Inserts guid before new lineBreak indent) (after : Text) :
    MarksLine (before ++ new ++ after) (before ++ lineBreak) (indent ++ "-- ".toList) (token guid)
      (trailer after) where
  split := by
    simp only [inserts.shape, trailer, line_eq, List.append_assoc]
    rfl
  startsLine := inserts.startsLine
  isLead := inserts.isLead
  isMarker := isMarker_token guid

/-- **What comes before an inserted marker.** A marker on an earlier line was left open in the body
above the insertion, and reaches down to the brace of the inserted one. -/
theorem Inserts.opensAt (inserts : Inserts guid before new lineBreak indent)
    (unmarked : Unmarked (before ++ after)) {passed start found rest : Text}
    (marks : MarksLine (before ++ new ++ after) passed start found rest)
    (earlier : passed.length < (before ++ lineBreak).length) :
    ∃ opening inside, OpensAt before passed start opening inside ∧
      found = opening ++ (inside ++ lineBreak) ++ closing guid indent ++ ['}'] := by
  have visible : ShowsOther (closing guid indent ++ '}' :: trailer after) :=
    ⟨indent, '-', "- ".toList ++ "@GUID ".toList ++ '{' :: guid.text ++ '}' :: trailer after,
      by simp only [closing, List.append_assoc]; rfl,
      fun c member => isBlank_of_isIndent (inserts.indented c member), by decide, by decide⟩
  rw [inserts.split] at marks
  rcases marks.above_or_opensAt inserts.startsLine visible earlier with
    ⟨more, shape⟩ | ⟨opening, inside, reached, opens, rfl, tail, absent⟩
  · exfalso
    have isMarker := marks.isMarker
    obtain ⟨word, content, rfl, _⟩ := marks.isMarker
    obtain ⟨inner, rfl, _⟩ := exists_cons_append_of_not_mem
      (show before ++ lineBreak = passed ++ start ++ word ++ content ++ '}' :: more by
        rw [shape]; simp) (inserts.not_mem_lineBreak (by decide))
    exact unmarked passed start _ (inner ++ after)
      ⟨by simp, marks.startsLine, marks.isLead, isMarker⟩
  · obtain ⟨rfl, _⟩ := append_cons_inj tail inserts.brace_not_mem absent
    have isOpening := opens.isOpening
    obtain ⟨word, gap, rfl, _⟩ := opens.isOpening
    obtain ⟨inner, rfl, rfl⟩ := exists_cons_append_of_not_mem
      (show before ++ lineBreak = passed ++ start ++ word ++ gap ++ '{' :: inside by
        rw [opens.split]; simp) (inserts.not_mem_lineBreak (by decide))
    have unclosed := opens.unclosed
    rw [List.mem_append, not_or] at unclosed
    exact ⟨_, inner, ⟨by simp, opens.startsLine, opens.isLead, isOpening, unclosed.1⟩, rfl⟩

/-- An inserted marker is found again when no marker is left open above it. -/
theorem Inserts.firstMarker (inserts : Inserts guid before new lineBreak indent)
    (unmarked : Unmarked (before ++ after)) (sealed : ¬ LeavesOpen before) :
    FirstMarker (before ++ new ++ after) (before ++ lineBreak ++ (indent ++ "-- ".toList))
      (token guid) (trailer after) := by
  refine ⟨before ++ lineBreak, indent ++ "-- ".toList, rfl, inserts.marksLine after, ?_⟩
  intro passed start found rest marks
  apply Nat.le_of_not_lt
  intro earlier
  obtain ⟨opening, inside, opens, _⟩ := inserts.opensAt unmarked marks earlier
  exact sealed ⟨passed, start, opening, inside, opens⟩

/-- Where a marker is left open above an inserted one, a longer marker is found. -/
theorem Inserts.exists_firstMarker (inserts : Inserts guid before new lineBreak indent)
    (unmarked : Unmarked (before ++ after)) (leaves : LeavesOpen before) :
    ∃ front found rest, FirstMarker (before ++ new ++ after) front found rest ∧
      found ≠ token guid := by
  obtain ⟨passed, start, opening, inside, opens⟩ := leaves
  have marks : MarksLine (before ++ new ++ after) passed start
      (opening ++ (inside ++ (lineBreak ++ closing guid indent)) ++ ['}']) (trailer after) := by
    have absent : '}' ∉ lineBreak ++ closing guid indent := by
      rw [List.mem_append, not_or]
      exact ⟨inserts.not_mem_lineBreak (by decide), inserts.brace_not_mem⟩
    rw [inserts.split, List.append_assoc, ← List.append_assoc lineBreak]
    exact opens.marksLine (by simp [closing]) absent
  cases found : splitExisting? (before ++ new ++ after) with
  | none => exact absurd marks (splitExisting?_eq_none_iff.mp found _ _ _ _)
  | some parts =>
      obtain ⟨front, marker, rest⟩ := parts
      have first := splitExisting?_eq_some_iff.mp found
      refine ⟨front, marker, rest, first, ?_⟩
      obtain ⟨firstPassed, firstStart, rfl, firstMarks, least⟩ := first
      have earlier := least _ _ _ _ marks
      obtain ⟨firstOpening, firstInside, firstOpens, rfl⟩ := inserts.opensAt unmarked firstMarks
        (by have short := opens.length_lt; rw [List.length_append]; omega)
      intro same
      have sizes := congrArg List.length same
      obtain ⟨tail, shape⟩ := firstOpens.isOpening.eq_cons
      simp only [shape, closing, token_eq, List.length_append, List.length_cons,
        List.length_nil] at sizes
      omega

/-- The token holds no dollar sign and no return. -/
theorem not_mem_token {z : Char} (member : z ∈ ['$', '\r']) : z ∉ token guid := by
  have outside : z ∉ "@GUID ".toList ∧ z ≠ '{' ∧ z ≠ '}' ∧ z ∉ Guid.alphabet := by
    simp only [List.mem_cons, List.not_mem_nil, or_false] at member
    rcases member with rfl | rfl <;> decide
  simp only [token_eq, List.mem_append, List.mem_cons, List.not_mem_nil, or_false, not_or]
  exact ⟨outside.1, ⟨outside.2.1, fun inside => outside.2.2.2 (guid.mem_alphabet_of_mem inside)⟩,
    outside.2.2.1⟩

/-- What an edit puts into a body closes no literal and breaks no line in another convention. -/
theorem Edit.not_mem (edit : Edit guid plpgsql body before old new after) {z : Char}
    (member : z ∈ ['$', '\r']) : z ∉ new := by
  have inToken : z ∉ token guid := not_mem_token member
  have outside : isIndent z = false ∧ z ∉ "-- ".toList ∧ z ∉ " - ".toList ∧ z ∉ notice ∧
      z ≠ '\n' := by
    simp only [List.mem_cons, List.not_mem_nil, or_false] at member
    rcases member with rfl | rfl <;> decide
  rcases edit.replaces_or_inserts with ⟨_, rfl⟩ | ⟨_, _, _, indent, inserts⟩
  · exact inToken
  · have inIndent : z ∉ indent := by
      intro inside
      rw [inserts.indented z inside] at outside
      cases outside.1
    rw [inserts.shape]
    simp only [line_eq, List.mem_append, List.mem_singleton, not_or]
    exact ⟨⟨⟨inserts.not_mem_lineBreak outside.2.2.2.2, inIndent⟩,
      ⟨⟨outside.2.1, inToken⟩, outside.2.2.1⟩, outside.2.2.2.1⟩, outside.2.2.2.2⟩

/-- An edit puts a separating character in. -/
theorem Edit.separates (edit : Edit guid plpgsql body before old new after) :
    ∃ c ∈ new, isIdentifierChar c = false := by
  rcases edit.replaces_or_inserts with ⟨_, rfl⟩ | ⟨_, _, _, _, inserts⟩
  · exact ⟨' ', List.mem_append_left _ (by decide), by decide⟩
  · exact ⟨'\n', by simp [inserts.shape], by decide⟩

variable {text id tag : Text} {script : Script}

/-- Marking a script is its edit, in the line endings of the text. -/
theorem ensure_of_edit (identified : Guid.parse? id = some guid)
    (parsed : Script.ofText? text.normalize = some script) (dollar : script.body = .dollar tag body)
    (edit : Edit guid (declaresPlpgsql text) body before old new after) :
    ensure text id = (LineEnding.detect text).apply
      (script.splice (tag ++ (before ++ new ++ after) ++ tag)) := by
  have placed := place?_eq_some_iff.mpr
    ⟨script, tag, body, before, old, new, after, parsed, dollar, edit, rfl⟩
  rw [ensure_of_parse? identified, placed, Option.getD_some]

/-- Texts that are put into a normalised script leave it normalised. -/
theorem return_not_mem_splice (parsed : Script.ofText? text.normalize = some script)
    (dollar : script.body = .dollar tag body) {other : Text} (bare : '\r' ∉ other) :
    '\r' ∉ script.splice (tag ++ other ++ tag) := by
  have normal := return_not_mem_normalize text
  rw [← Script.text_of_ofText? parsed, Script.text, dollar, Literal.written] at normal
  simp only [Script.splice, List.mem_append, not_or] at normal ⊢
  exact ⟨⟨normal.1.1, ⟨normal.1.2.1.1, bare⟩, normal.1.2.2⟩, normal.2⟩

/-- A marked script that still defines a routine has the same text around its body. -/
theorem splice_of_ofText?_splice {source other : Text} {exchanged : Script}
    (parsed : Script.ofText? source = some script) (dollar : script.body = .dollar tag body)
    (first : FirstAfter tag other (other ++ tag))
    (found : Script.ofText? (script.splice (tag ++ other ++ tag)) = some exchanged) :
    exchanged.body = .dollar tag other ∧
      ∀ literal, exchanged.splice literal = script.splice literal := by
  have opens := (Script.opensBody_of_ofText? parsed dollar).1
  have same := opens.eq_of_ofText? first found
  have written := Script.text_of_ofText? found
  have literal : exchanged.body = .dollar tag other := by rw [same]
  have prologue : exchanged.prologue = script.prologue := by rw [same]; rfl
  rw [Script.text, literal, prologue, Script.splice] at written
  refine ⟨literal, fun replacement => ?_⟩
  rw [Script.splice, Script.splice, prologue, List.append_cancel_left written]

/-- A body that was edited is normalised if it was before. -/
theorem Edit.return_not_mem (edit : Edit guid plpgsql body before old new after)
    (bare : '\r' ∉ body) : '\r' ∉ before ++ new ++ after := by
  rw [edit.split] at bare
  simp only [List.mem_append, not_or] at bare ⊢
  exact ⟨⟨bare.1.1, edit.not_mem (by simp)⟩, bare.2⟩

/-- The body of a normalized script holds no returns. -/
theorem return_not_mem_body (parsed : Script.ofText? text.normalize = some script)
    (dollar : script.body = .dollar tag body) : '\r' ∉ body := by
  have normal := return_not_mem_normalize text
  rw [← Script.text_of_ofText? parsed, Script.text, dollar, Literal.written] at normal
  simp only [List.mem_append, not_or] at normal
  exact normal.1.2.1.2

/-- The normalised form of a marked text. -/
theorem normalize_ensure (identified : Guid.parse? id = some guid)
    (parsed : Script.ofText? text.normalize = some script) (dollar : script.body = .dollar tag body)
    (edit : Edit guid (declaresPlpgsql text) body before old new after) :
    (ensure text id).normalize = script.splice (tag ++ (before ++ new ++ after) ++ tag) := by
  have bare := return_not_mem_splice parsed dollar
    (edit.return_not_mem (return_not_mem_body parsed dollar))
  rw [ensure_of_edit identified parsed dollar edit, LineEnding.normalize_apply _ bare]

/-- The tag of the body is found first at its end after an edit too. -/
theorem Edit.firstAfter (edit : Edit guid plpgsql body before old new after)
    (parsed : Script.ofText? text = some script) (dollar : script.body = .dollar tag body) :
    FirstAfter tag (before ++ new ++ after) (before ++ new ++ after ++ tag) := by
  obtain ⟨opens, first⟩ := Script.opensBody_of_ofText? parsed dollar
  rw [edit.split] at first
  exact first.edit opens.isTag (edit.not_mem (by simp)) edit.separates

/-- **The second pass.** Another identifier takes the place of the first marker that is found in the
edited body. -/
theorem ensure_ensure_of_firstMarker {second : Text} {other : Guid}
    (identified : Guid.parse? id = some guid) (named : Guid.parse? second = some other)
    (parsed : Script.ofText? text.normalize = some script) (dollar : script.body = .dollar tag body)
    (edit : Edit guid (declaresPlpgsql text) body before old new after)
    (again : (Script.ofText? (ensure text id).normalize).isSome = true) {front found rest : Text}
    (first : FirstMarker (before ++ new ++ after) front found rest) :
    ensure (ensure text id) second = (LineEnding.detect (ensure text id)).apply
      (script.splice (tag ++ (front ++ token other ++ rest) ++ tag)) := by
  have normal := normalize_ensure identified parsed dollar edit
  obtain ⟨exchanged, found⟩ := Option.isSome_iff_exists.mp again
  rw [normal] at found
  obtain ⟨literal, around⟩ :=
    splice_of_ofText?_splice parsed dollar (edit.firstAfter parsed dollar) found
  rw [← normal] at found
  rw [ensure_of_edit named found literal (.replacement first), around]

/-- With the same identifier, the second pass changes nothing exactly when the first marker it finds
is the one that the first pass has left. -/
theorem ensure_ensure_eq_iff_of_firstMarker (identified : Guid.parse? id = some guid)
    (parsed : Script.ofText? text.normalize = some script) (dollar : script.body = .dollar tag body)
    (edit : Edit guid (declaresPlpgsql text) body before old new after)
    (again : (Script.ofText? (ensure text id).normalize).isSome = true) {front found rest : Text}
    (first : FirstMarker (before ++ new ++ after) front found rest) :
    ensure (ensure text id) id = ensure text id ↔ found = token guid := by
  have bareBody := edit.return_not_mem (return_not_mem_body parsed dollar)
  have replaced : Edit guid (declaresPlpgsql text) _ front found (token guid) rest :=
    .replacement first
  have bareAgain := replaced.return_not_mem bareBody
  rw [ensure_ensure_of_firstMarker identified identified parsed dollar edit again first]
  constructor
  · intro same
    have texts := congrArg Text.normalize same
    rw [LineEnding.normalize_apply _ (return_not_mem_splice parsed dollar bareAgain),
      normalize_ensure identified parsed dollar edit, first.split] at texts
    simpa [Script.splice] using texts.symm
  · rintro rfl
    rw [← first.split, ensure_of_edit identified parsed dollar edit,
      LineEnding.apply_detect_apply _ (return_not_mem_splice parsed dollar bareBody)
        fun member => member]

/-- **Half-written markers.** The marker of the text was inserted below a line of the body that
opens a marker and is not followed by a closing brace before the inserted line; and the marked text
still defines a routine. -/
def Swallows (text id : Text) : Prop :=
  ∃ guid script tag body before new after,
    Guid.parse? id = some guid ∧
    Script.ofText? text.normalize = some script ∧
    script.body = .dollar tag body ∧
    Unmarked body ∧
    Edit guid (declaresPlpgsql text) body before [] new after ∧
    LeavesOpen before ∧
    (Script.ofText? (ensure text id).normalize).isSome = true

end

/-- **Marking twice.** Marking a marked text again with the same identifier changes nothing, except
where the inserted marker closes a half-written one above it. -/
theorem ensure_ensure_eq_iff (text id : Text) :
    ensure (ensure text id) id = ensure text id ↔ ¬ Swallows text id := by
  constructor
  · rintro same ⟨guid, script, tag, body, before, new, after, identified, parsed, dollar, unmarked,
      edit, leaves, again⟩
    rcases edit.replaces_or_inserts with ⟨first, _⟩ | ⟨_, _, _, _, inserts⟩
    · obtain ⟨_, _, _, marks, _⟩ := first
      exact unmarked _ _ _ _ marks
    · have split : body = before ++ after := by simpa using edit.split
      obtain ⟨front, found, rest, first, differs⟩ :=
        inserts.exists_firstMarker (split ▸ unmarked) leaves
      exact differs
        ((ensure_ensure_eq_iff_of_firstMarker identified parsed dollar edit again first).mp same)
  · intro whole
    cases identified : Guid.parse? id with
    | none => rw [ensure, identified]
    | some guid =>
        cases placed : place? text guid with
        | none =>
            have unchanged : ensure text id = text := by
              rw [ensure_of_parse? identified, placed, Option.getD_none]
            rw [unchanged, unchanged]
        | some marked =>
            obtain ⟨script, tag, body, before, old, new, after, parsed, dollar, edit, _⟩ :=
              place?_eq_some_iff.mp placed
            by_cases again : (Script.ofText? (ensure text id).normalize).isSome = true
            · rcases edit.replaces_or_inserts with
                ⟨first, rfl⟩ | ⟨unmarked, rfl, lineBreak, indent, inserts⟩
              · exact (ensure_ensure_eq_iff_of_firstMarker identified parsed dollar edit again
                  (first.again guid)).mpr rfl
              · by_cases leaves : LeavesOpen before
                · exact absurd ⟨guid, script, tag, body, before, new, after, identified, parsed,
                    dollar, unmarked, edit, leaves, again⟩ whole
                · have split : body = before ++ after := by simpa using edit.split
                  exact (ensure_ensure_eq_iff_of_firstMarker identified parsed dollar edit again
                    (inserts.firstMarker (split ▸ unmarked) leaves)).mpr rfl
            · have undefined : Script.ofText? (ensure text id).normalize = none := by
                simpa using again
              have unplaced : place? (ensure text id) guid = none := by rw [place?, undefined]
              rw [ensure_of_parse? identified, unplaced, Option.getD_none]

/-- A body that opens a marker above its `BEGIN` loses the `BEGIN` to the second pass. -/
theorem ensure_ensure_ne_of_half_written :
    let id := "9968C379-A8C4-4D5A-9F23-4F79E7C3B5E9".toList
    let text := "CREATE FUNCTION f() AS $$\n@GUID \x7b\nBEGIN\nEND$$ LANGUAGE plpgsql".toList
    ensure (ensure text id) id ≠ ensure text id := by
  intro id text
  have once : ensure text id =
      "CREATE FUNCTION f() AS $$\n@GUID \x7b\nBEGIN\n".toList ++
        "-- @GUID \x7b9968C379-A8C4-4D5A-9F23-4F79E7C3B5E9\x7d - ".toList ++ notice ++
        "\nEND$$ LANGUAGE plpgsql".toList := by decide +kernel
  have twice : ensure (ensure text id) id =
      "CREATE FUNCTION f() AS $$\n".toList ++
        "@GUID \x7b9968C379-A8C4-4D5A-9F23-4F79E7C3B5E9\x7d - ".toList ++ notice ++
        "\nEND$$ LANGUAGE plpgsql".toList := by
    rw [once]
    decide +kernel
  rw [twice, once]
  decide +kernel

end Marker

end RoutineScripts
