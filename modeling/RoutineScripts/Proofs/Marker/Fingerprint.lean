import RoutineScripts.Proofs.Encoding.Utf8
import RoutineScripts.Proofs.Marker.Basic
import RoutineScripts.Proofs.Marker.Overwrite
import RoutineScripts.Proofs.Routine.Definition
import RoutineScripts.Proofs.Text.Rows
import RoutineScripts.Routine.Fingerprint

/-!
# Markers and fingerprints

A fingerprint leaves out the lines of a body that carry a marker, but only after blank lines have
been trimmed from the body. So marking shows in it when it comes between blank lines and the text
below them, or when it replaces a marker that is none for the fingerprint (`Marker.disturbs`), and
not otherwise (`Marker.summary_ensure_eq_iff`).
-/

namespace RoutineScripts

namespace Text

/-- A line holds no line feed. -/
theorem newline_not_mem_of_mem_lines {text line : Text} (member : line ∈ text.lines) :
    '\n' ∉ line := by
  induction text generalizing line with
  | nil => cases member
  | cons c rest ih =>
      rw [lines] at member
      split at member
      case isTrue =>
        rcases List.mem_cons.mp member with rfl | later
        · simp
        · exact ih later
      case isFalse notFeed =>
        split at member
        case h_1 =>
          obtain rfl := List.mem_singleton.mp member
          simpa using Ne.symm notFeed
        case h_2 first others shape =>
          rcases List.mem_cons.mp member with rfl | later
          · have inner := ih (shape ▸ List.mem_cons_self)
            simp [Ne.symm notFeed, inner]
          · exact ih (shape ▸ List.mem_cons_of_mem _ later)

/-- Lines are told apart by their ends. -/
theorem flatMap_newline_inj {first second : List Text} (firstLines : ∀ line ∈ first, '\n' ∉ line)
    (secondLines : ∀ line ∈ second, '\n' ∉ line)
    (same : first.flatMap (· ++ ['\n']) = second.flatMap (· ++ ['\n'])) : first = second := by
  induction first generalizing second with
  | nil =>
      cases second with
      | nil => rfl
      | cons line second => simp at same
  | cons line first ih =>
      cases second with
      | nil => simp at same
      | cons other second =>
          obtain ⟨unbroken, others⟩ := List.forall_mem_cons.mp firstLines
          obtain ⟨otherUnbroken, otherOthers⟩ := List.forall_mem_cons.mp secondLines
          simp only [List.flatMap_cons, List.append_assoc, List.singleton_append] at same
          obtain ⟨rfl, rest⟩ := append_cons_inj same unbroken otherUnbroken
          rw [ih others otherOthers rest]

end Text

namespace Marker

open Recogniser Text

/-- Whether a line counts for a fingerprint: it carries no marker. -/
def isPlain (line : Text) : Bool :=
  (find? line).isNone

/-- The lines of a body that count for a fingerprint. -/
def countedLines (body : Text) : List Text :=
  body.trimBlankLines.lines.filter isPlain

/-- Whether marking a body shows in the lines that count. The line of the marker that is replaced
counts itself, or a body that gets a marker line after its first line break starts with two blank
rows, or is blank and does not end in a line break. -/
def disturbs (plpgsql : Bool) (body : Text) : Bool :=
  match splitExisting? body with
  | some (before, found, after) => isPlain (lastRow before ++ firstRow (found ++ after))
  | none =>
      !plpgsql &&
        if body.all isBlank then body.getLast?.any (· != '\n')
        else 2 ≤ ((rows body).takeWhile isBlankRow).length

/-- A blank row holds no marker. -/
theorem isPlain_of_isBlankRow {row : Text} (blank : isBlankRow row = true) :
    isPlain row = true := by
  rw [isPlain, find?_of_isBlank (List.all_eq_true.mp blank)]
  rfl

/-- A row with the token holds a marker. -/
theorem isPlain_token (front back : Text) (guid : Guid) :
    isPlain (front ++ token guid ++ back) = false := by
  rw [isPlain, ← Option.not_isSome, isSome_find?]
  rfl

/-- A row with the token is not blank. -/
theorem isBlankRow_token (front back : Text) (guid : Guid) :
    isBlankRow (front ++ token guid ++ back) = false :=
  isBlankRow_of_mem (c := '@') (by simp [token_eq]) (by decide)

section

variable {body : Text} {above below : List Text} {row : Text}

/-- A visible row has a visible character of the body. -/
theorem exists_visible (split : rows body = above ++ row :: below)
    (visible : isBlankRow row = false) : ∃ c ∈ body, isBlank c = false := by
  obtain ⟨c, member, seen⟩ := List.all_eq_false.mp visible
  have inside : row ∈ rows body := by
    rw [split]
    simp
  exact ⟨c, (mem_of_mem_rows inside).2 c member, by simpa using seen⟩

/-- The lines that count of a body with a visible row. -/
theorem countedLines_eq (bare : '\r' ∉ body) (split : rows body = above ++ row :: below)
    (visible : isBlankRow row = false) :
    countedLines body = (above.dropWhile isBlankRow).filter isPlain ++
      (row :: dropBlankEnd below).filter isPlain := by
  rw [countedLines, lines_trimBlankLines bare (exists_visible split visible), split,
    trimRows_append_cons visible, List.filter_append]

/-- `marked` is `body` with a marker line between the rows `above` and the rows `below`. -/
structure InsertsRow (body marked : Text) (above below : List Text) : Prop where
  bare : '\r' ∉ body
  bareMarked : '\r' ∉ marked
  split : rows body = above ++ below
  insertion : ∃ inserted rest, rows marked = above ++ inserted :: rest ∧
    isBlankRow inserted = false ∧ isPlain inserted = false ∧
    dropBlankEnd rest = dropBlankEnd below

namespace InsertsRow

variable {marked : Text}

/-- The marker line does not count, but the blank rows above the visible ones below it do. -/
theorem countedLines_marked (inserts : InsertsRow body marked above below) :
    countedLines marked = (above.dropWhile isBlankRow).filter isPlain ++
      (dropBlankEnd below).filter isPlain := by
  obtain ⟨inserted, rest, shape, shown, carries, same⟩ := inserts.insertion
  rw [countedLines_eq inserts.bareMarked shape shown, List.filter_cons, carries, same]
  rfl

/-- Below a visible row a marker line does not show. -/
theorem countedLines_of_visible (inserts : InsertsRow body marked (above ++ [row]) below)
    (visible : isBlankRow row = false) : countedLines marked = countedLines body := by
  have split : rows body = above ++ row :: below := by
    rw [inserts.split, List.append_assoc, List.singleton_append]
  rw [inserts.countedLines_marked, countedLines_eq inserts.bare split visible,
    dropWhile_append_cons visible, List.filter_append, List.append_assoc, ← List.filter_append,
    List.singleton_append]

variable (inserts : InsertsRow body marked above below)
  (blank : ∀ row ∈ above, isBlankRow row = true)

include inserts blank in
/-- In a blank body, only rows below the inserted line count. -/
theorem countedLines_of_blank : countedLines marked = (dropBlankEnd below).filter isPlain := by
  rw [inserts.countedLines_marked, List.dropWhile_eq_nil_iff.mpr blank, List.filter_nil,
    List.nil_append]

include inserts blank in
/-- A body with a visible character has a first visible row below its blank ones. -/
theorem exists_blanks (visible : ∃ c ∈ body, isBlank c = false) :
    ∃ blanks row rest, below = blanks ++ row :: rest ∧
      (∀ row ∈ blanks, isBlankRow row = true) ∧ isBlankRow row = false := by
  have stops := List.head?_dropWhile_not isBlankRow below
  have whole : below.takeWhile isBlankRow ++ below.dropWhile isBlankRow = below :=
    List.takeWhile_append_dropWhile
  have blanks : ∀ row ∈ below.takeWhile isBlankRow, isBlankRow row = true :=
    List.all_eq_true.mp List.all_takeWhile
  cases left : below.dropWhile isBlankRow with
  | cons row rest =>
      rw [left] at stops whole
      exact ⟨_, row, rest, whole.symm, blanks, by simpa using stops⟩
  | nil =>
      rw [left, List.append_nil] at whole
      rw [whole] at blanks
      obtain ⟨c, member, seen⟩ := visible
      obtain ⟨row, inside, holds⟩ := exists_mem_rows member (by rintro rfl; cases seen)
      have all : isBlankRow row = true := by
        rw [inserts.split, List.mem_append] at inside
        exact inside.elim (blank row) (blanks row)
      rw [List.all_eq_true.mp all c holds] at seen
      cases seen

include inserts blank in
/-- Above everything visible a marker line shows if blank rows come below it. -/
theorem countedLines_eq_iff (visible : ∃ c ∈ body, isBlank c = false) :
    countedLines marked = countedLines body ↔
      ((rows body).takeWhile isBlankRow).length ≤ above.length := by
  obtain ⟨blanks, row, rest, rfl, blanksBlank, rowVisible⟩ := inserts.exists_blanks blank visible
  have passed : ∀ row ∈ above ++ blanks, isBlankRow row = true := by
    intro row member
    exact (List.mem_append.mp member).elim (blank row) (blanksBlank row)
  have split : rows body = (above ++ blanks) ++ row :: rest := by
    rw [inserts.split, List.append_assoc]
  have kept : blanks.filter isPlain = blanks :=
    List.filter_eq_self.mpr fun row member => isPlain_of_isBlankRow (blanksBlank row member)
  have taken : (rows body).takeWhile isBlankRow = above ++ blanks := by
    rw [split, List.takeWhile_append_of_pos passed,
      List.takeWhile_cons_of_neg (by simp [rowVisible]), List.append_nil]
  rw [inserts.countedLines_of_blank blank, countedLines_eq inserts.bare split rowVisible,
    List.dropWhile_eq_nil_iff.mpr passed, dropBlankEnd_append_cons rowVisible, List.filter_append,
    kept, taken, List.filter_nil, List.nil_append, List.append_left_eq_self, List.length_append]
  rw [← List.length_eq_zero_iff]
  omega

include inserts blank in
/-- In a blank body a marker line shows if the body does not end in a line break. -/
theorem countedLines_eq_iff_of_blank (allBlank : ∀ c ∈ body, isBlank c = true) :
    countedLines marked = countedLines body ↔ body.getLast?.any (· != '\n') = false := by
  have belowBlank : ∀ row ∈ below, isBlankRow row = true := by
    intro row member
    refine isBlankRow_of_mem_rows allBlank row ?_
    rw [inserts.split]
    exact List.mem_append_right _ member
  obtain ⟨trimmedBlank, trimmed⟩ := lines_trimBlankLines_of_blank inserts.bare allBlank
  rw [inserts.countedLines_of_blank blank, dropBlankEnd_of_blank belowBlank, countedLines, trimmed]
  cases body.getLast?.any (· != '\n') with
  | true => simp [isPlain_of_isBlankRow trimmedBlank]
  | false => simp

end InsertsRow

end

section

variable {body before found after : Text}

/-- The line of the first marker, up to the marker, is its lead. -/
theorem lastRow_append {passed start : Text} (starts : startsLine passed.getLast? = true)
    (unbroken : '\n' ∉ start) : lastRow (passed ++ start) = start := by
  have row : lastRow start = start := takeTail_of_forall (bne_newline_of_not_mem unbroken)
  rcases List.eq_nil_or_concat passed with rfl | ⟨front, z, rfl⟩
  · exact row
  · obtain rfl : z = '\n' := by simpa [startsLine] using starts
    rw [List.concat_eq_append, List.append_assoc, List.singleton_append, lastRow,
      takeTail_append_cons (by simp)]
    exact row

/-- A marker of several lines is none for a fingerprint: its first line has no closing brace. -/
theorem FirstMarker.newline_not_mem (first : FirstMarker body before found after)
    (carries : isPlain (lastRow before ++ firstRow (found ++ after)) = false) : '\n' ∉ found := by
  obtain ⟨passed, start, rfl, marks, _⟩ := first
  obtain ⟨opening, inside, rfl, isOpening, _, absent⟩ := marks.isMarker
  obtain ⟨id, carried⟩ : ∃ id, find? (lastRow (passed ++ start) ++
      firstRow (opening ++ inside ++ ['}'] ++ after)) = some id := by
    rw [← Option.isSome_iff_exists, ← Option.not_isNone]
    simpa [isPlain] using carries
  have lead := lastRow_append marks.startsLine
    (not_mem_of_isLead marks.isLead (by decide) (by decide) : '\n' ∉ start)
  intro broken
  have within : '\n' ∈ opening ++ inside := by simpa using broken
  obtain ⟨front, back, split, unbroken⟩ := List.eq_append_cons_of_mem within
  have row : firstRow (opening ++ inside ++ ['}'] ++ after) = front := by
    have joined := (List.cons.inj
      (rows_append_of_not_mem unbroken ('\n' :: (back ++ ['}'] ++ after)))).1
    rw [split]
    simpa [firstRow] using joined
  have brace := (mem_of_find? carried).2
  rw [lead, row, List.mem_append] at brace
  rcases brace with inLead | inFront
  · exact not_mem_of_isLead marks.isLead (by decide) (by decide) inLead
  · have inside : '}' ∈ opening ++ inside := by
      rw [split]
      exact List.mem_append_left _ inFront
    exact (List.mem_append.mp inside).elim isOpening.brace_not_mem absent

/-- A marker that is replaced shows if its line counted. -/
theorem FirstMarker.countedLines_eq_iff (first : FirstMarker body before found after)
    (bare : '\r' ∉ body) (guid : Guid) :
    countedLines (before ++ token guid ++ after) = countedLines body ↔
      isPlain (lastRow before ++ firstRow (found ++ after)) = false := by
  obtain ⟨above, joined⟩ := exists_rows_append before
  have split := joined (found ++ after)
  rw [← List.append_assoc, ← first.split] at split
  have replaced : rows (before ++ token guid ++ after) =
      above ++ (lastRow before ++ token guid ++ firstRow after) :: laterRows after := by
    obtain ⟨row, later⟩ := List.cons.inj (rows_append_of_not_mem (newline_not_mem_token guid) after)
    rw [List.append_assoc before, joined, row, later, List.append_assoc]
  have visible : isBlankRow (lastRow before ++ firstRow (found ++ after)) = false := by
    obtain ⟨_, _, _, marks, _⟩ := first
    obtain ⟨tail, rfl⟩ := marks.isMarker.eq_cons
    exact isBlankRow_of_mem (c := '@') (by simp [firstRow]) (by decide)
  have bareMarked : '\r' ∉ before ++ token guid ++ after := by
    rw [first.split] at bare
    simp only [List.mem_append, not_or] at bare ⊢
    exact ⟨⟨bare.1.1, not_mem_token (by simp)⟩, bare.2⟩
  rw [countedLines_eq bareMarked replaced (isBlankRow_token _ _ guid),
    countedLines_eq bare split visible,
    List.filter_cons_of_neg (by rw [isPlain_token]; exact Bool.false_ne_true),
    List.append_cancel_left_eq]
  constructor
  · intro same
    rw [Bool.eq_false_iff]
    intro plain
    obtain ⟨between, later⟩ := exists_laterRows_append found after
    obtain ⟨kept, left⟩ := exists_dropBlankEnd_append between (laterRows after)
    rw [List.filter_cons_of_pos plain, later, left, List.filter_append] at same
    have lengths := congrArg List.length same
    simp only [List.length_cons, List.length_append] at lengths
    omega
  · intro carries
    have later : laterRows (found ++ after) = laterRows after :=
      (List.cons.inj (rows_append_of_not_mem (first.newline_not_mem carries) after)).2
    rw [List.filter_cons_of_neg (by simp [carries]), later]

end

section

variable {guid : Guid} {plpgsql : Bool} {body before old new after : Text}

/-- A line with the marker of an identifier, put between two rows. -/
theorem insertsRow (guid : Guid) (indent : Text) {marked : Text} {above below rest : List Text}
    (bare : '\r' ∉ body) (bareMarked : '\r' ∉ marked) (split : rows body = above ++ below)
    (insertion : rows marked = above ++ (indent ++ line guid) :: rest)
    (same : dropBlankEnd rest = dropBlankEnd below) : InsertsRow body marked above below := by
  have shape : indent ++ line guid =
      indent ++ "-- ".toList ++ token guid ++ (" - ".toList ++ notice) := by
    simp [line_eq]
  exact ⟨bare, bareMarked, split, _, rest, insertion, shape ▸ isBlankRow_token _ _ guid,
    shape ▸ isPlain_token _ _ guid, same⟩

/-- The inserted line is a row of its own. -/
theorem rows_line (guid : Guid) {indent : Text} (indented : ∀ c ∈ indent, isIndent c = true)
    (rest : Text) :
    rows (indent ++ line guid ++ '\n' :: rest) = (indent ++ line guid) :: rows rest := by
  rw [rows_append_newline, rows_of_not_mem (newline_not_mem_line guid indented),
    List.singleton_append]

/-- The line of a `BEGIN` is visible. -/
theorem FirstBlock.exists_row {opening rest : Text} (first : FirstBlock body opening after)
    (sameLine : '\n' ∉ rest) :
    ∃ above row, rows (opening ++ rest) = above ++ [row] ∧ isBlankRow row = false := by
  obtain ⟨passed, indent, word, rfl, block, _⟩ := first
  obtain ⟨c, letters, rfl, form, _⟩ := Remark.eq_cons_of_spells block.spells
  have visible : isBlank c = false := by
    rw [Bool.eq_false_iff]
    intro blank
    rw [isFormOf_of_isBlank blank (by decide)] at form
    cases form
  have unbroken : '\n' ∉ c :: letters ++ rest := by
    rw [List.mem_append, not_or]
    exact ⟨not_mem_of_spells (by decide) block.spells, sameLine⟩
  obtain ⟨above, joined⟩ := exists_rows_append (passed ++ indent)
  obtain ⟨row, none⟩ := List.cons.inj (rows_of_not_mem unbroken)
  refine ⟨above, lastRow (passed ++ indent) ++ (c :: letters ++ rest), ?_,
    isBlankRow_of_mem (c := c) (by simp) visible⟩
  rw [List.append_assoc, joined, row, none]

/-- Without a marker to replace, only blank rows at the top of a body can disturb. -/
theorem disturbs_of_unmarked (unmarked : Unmarked body) :
    disturbs plpgsql body =
      (!plpgsql &&
        if body.all isBlank then body.getLast?.any (· != '\n')
        else 2 ≤ ((rows body).takeWhile isBlankRow).length) := by
  rw [disturbs, splitExisting?_eq_none_iff.mpr unmarked]

/-- A body whose first row is visible is not disturbed. -/
theorem disturbs_of_visible {rest : List Text} {row : Text} (unmarked : Unmarked body)
    (split : rows body = row :: rest) (visible : isBlankRow row = false) :
    disturbs plpgsql body = false := by
  have whole : rows body = [] ++ row :: rest := split
  obtain ⟨c, member, seen⟩ := exists_visible whole visible
  have notBlank : ¬ body.all isBlank = true := by
    intro blank
    rw [List.all_eq_true.mp blank c member] at seen
    cases seen
  rw [disturbs_of_unmarked unmarked, if_neg notBlank, split,
    List.takeWhile_cons_of_neg (by simp [visible])]
  exact Bool.and_false _

/-- A marker line that has nothing but blank rows above it. -/
theorem InsertsRow.countedLines_eq_iff_disturbs {marked : Text} {above below : List Text}
    (inserts : InsertsRow body marked above below) (blank : ∀ row ∈ above, isBlankRow row = true)
    (unmarked : Unmarked body)
    (starts : (∃ c ∈ body, isBlank c = false) →
      (((rows body).takeWhile isBlankRow).length ≤ above.length ↔
        ((rows body).takeWhile isBlankRow).length < 2)) :
    countedLines marked = countedLines body ↔ disturbs false body = false := by
  rw [disturbs_of_unmarked unmarked]
  by_cases allBlank : body.all isBlank = true
  · rw [inserts.countedLines_eq_iff_of_blank blank (List.all_eq_true.mp allBlank), if_pos allBlank]
    rfl
  · have visible : ∃ c ∈ body, isBlank c = false := by
      obtain ⟨c, member, seen⟩ := List.all_eq_false.mp (Bool.not_eq_true _ ▸ allBlank)
      exact ⟨c, member, by simpa using seen⟩
    rw [inserts.countedLines_eq_iff blank visible, starts visible, if_neg allBlank]
    simp

/-- **When marking shows.** -/
theorem Edit.countedLines_eq_iff (edit : Edit guid plpgsql body before old new after)
    (bare : '\r' ∉ body) :
    countedLines (before ++ new ++ after) = countedLines body ↔ disturbs plpgsql body = false := by
  have bareMarked := edit.return_not_mem bare
  have nothing : ∀ c ∈ ([] : Text), isIndent c = true := by simp
  generalize whole : before ++ new ++ after = marked at bareMarked ⊢
  cases edit with
  | replacement first =>
      rw [← whole, disturbs, splitExisting?_eq_some_iff.mpr first]
      exact first.countedLines_eq_iff bare guid
  | @belowBegin opening rest _ unmarked declared first sameLine =>
      rw [disturbs_of_unmarked unmarked, declared]
      refine iff_of_true ?_ rfl
      obtain ⟨above, row, shape, visible⟩ := first.exists_row sameLine
      have indented : ∀ c ∈ after.takeWhile isIndent, isIndent c = true :=
        List.all_eq_true.mp List.all_takeWhile
      have inserts : InsertsRow body marked (above ++ [row]) (rows after) := by
        refine insertsRow guid (after.takeWhile isIndent) bare bareMarked ?_ ?_ rfl
        · rw [first.split, ← List.append_assoc, rows_append_newline, shape]
        · rw [← whole, ← shape, ← rows_line guid indented, ← rows_append_newline]
          simp
      exact inserts.countedLines_of_visible visible
  | @belowLastLine opening rest unmarked declared first sameLine =>
      rw [disturbs_of_unmarked unmarked, declared]
      refine iff_of_true ?_ rfl
      obtain ⟨above, row, shape, visible⟩ := first.exists_row sameLine
      have inserts : InsertsRow body marked (above ++ [row]) [] := by
        refine insertsRow guid [] bare bareMarked ?_ (?_ : _ = _ ++ _ :: rows []) rfl
        · rw [first.split, shape, List.append_nil]
        · rw [← whole, ← shape, ← rows_line guid nothing, ← rows_append_newline]
          simp
      exact inserts.countedLines_of_visible visible
  | @belowOpening opening _ unmarked undeclared split sameLine =>
      have inserts : InsertsRow body marked [opening] (rows after) := by
        refine insertsRow guid [] bare bareMarked ?_ ?_ rfl
        · rw [split, rows_append_newline, rows_of_not_mem sameLine]
        · rw [← whole, ← rows_of_not_mem sameLine, ← rows_line guid nothing, ← rows_append_newline]
          simp
      rw [undeclared]
      cases blank : isBlankRow opening with
      | true =>
          refine inserts.countedLines_eq_iff_disturbs (by simpa using blank) unmarked fun _ => ?_
          simp only [List.length_singleton]
          omega
      | false =>
          have below : InsertsRow body marked ([] ++ [opening]) (rows after) := inserts
          rw [disturbs_of_visible unmarked below.split blank]
          exact iff_of_true (below.countedLines_of_visible blank) rfl
  | atStart unmarked undeclared unbroken =>
      have inserts : InsertsRow body marked [] [body] := by
        refine insertsRow guid [] bare bareMarked (rows_of_not_mem unbroken) ?_ rfl
        rw [← whole, ← rows_of_not_mem unbroken, List.nil_append, ← rows_line guid nothing]
        simp
      rw [undeclared]
      refine inserts.countedLines_eq_iff_disturbs (by simp) unmarked fun visible => ?_
      obtain ⟨c, member, seen⟩ := visible
      have row := isBlankRow_of_mem member seen
      rw [rows_of_not_mem unbroken, List.takeWhile_cons_of_neg (by simp [row])]
      decide

end

/-- A body that marking disturbs can be marked. -/
theorem exists_updateBody?_of_disturbs {plpgsql : Bool} {body : Text}
    (shows : disturbs plpgsql body = true) (guid : Guid) :
    ∃ updated, updateBody? guid plpgsql body = some updated := by
  rw [disturbs] at shows
  rw [updateBody?]
  cases existing : splitExisting? body with
  | some parts => exact ⟨_, rfl⟩
  | none =>
      rw [existing] at shows
      cases plpgsql with
      | true => cases shows
      | false => exact ⟨_, rfl⟩

/-- The text has a script with a dollar-quoted body that marking disturbs. -/
def Disturbed (text : Text) : Prop :=
  ∃ script tag body, Script.ofText? text.normalize = some script ∧
    script.body = .dollar tag body ∧ disturbs (declaresPlpgsql text) body = true

end Marker

namespace Definition

open Text

/-- The lines that count in a definition are those of its body, in whatever convention that is
written. -/
theorem plainLines_eq {definition : Definition} {tag body : Text} {ending : LineEnding}
    (dollar : definition.script.body = .dollar tag (ending.apply body)) (bare : '\r' ∉ body) :
    definition.plainLines = Marker.countedLines body := by
  have content : definition.bodyText.normalize = body.trimBlankLines := by
    rw [bodyText, dollar, Literal.text, ← trimBlankLines_normalize, ending.normalize_apply bare]
  rw [plainLines, content]
  rfl

/-- Definitions that differ in nothing but their bodies have the same summary if the same lines
count. -/
theorem summary_eq_iff {first second : Definition}
    (fields : first.summaryFields = second.summaryFields)
    (comments : first.comment = second.comment) :
    first.summary = second.summary ↔ first.plainLines = second.plainLines := by
  have unbroken (definition : Definition) : ∀ line ∈ definition.plainLines, '\n' ∉ line :=
    fun line member => newline_not_mem_of_mem_lines (List.mem_filter.mp member).1
  rw [summary, summary, fields, comments]
  simp only [List.append_cancel_left_eq, List.append_cancel_right_eq]
  exact ⟨flatMap_newline_inj (unbroken first) (unbroken second), fun same => by rw [same]⟩

end Definition

namespace Marker

open Text

/-- **A marked script is read again.** A text whose line breaks are all of one kind and the marked
text have the same script but for the body, which is the edited one in the convention of the
text. -/
theorem ofText?_ensure {text id tag body before old new after : Text} {guid : Guid}
    {script raw : Script} (uniform : Uniform text) (identified : Guid.parse? id = some guid)
    (normal : Script.ofText? text.normalize = some script) (dollar : script.body = .dollar tag body)
    (edit : Edit guid (declaresPlpgsql text) body before old new after)
    (found : Script.ofText? text = some raw)
    (quiet : Remark.OpensNowhere text raw.before.length
      (raw.prologue ++ raw.body.written).length) :
    raw.body = .dollar tag ((LineEnding.detect text).apply body) ∧
      Script.ofText? (ensure text id) = some { raw with
        body := .dollar tag ((LineEnding.detect text).apply (before ++ new ++ after)) } := by
  have isTag := (Script.opensBody_of_ofText? normal dollar).1.isTag
  obtain ⟨prologue, written, epilogue⟩ :=
    Script.eq_apply_of_uniform uniform found normal dollar
  rw [ensure_of_edit identified normal dollar edit]
  generalize LineEnding.detect text = ending at prologue written epilogue ⊢
  have parts : raw.body =
      .dollar tag (ending.apply before ++ ending.apply old ++ ending.apply after) := by
    rw [written, edit.split, LineEnding.apply_append, LineEnding.apply_append]
  have absent : '$' ∉ new := edit.not_mem (by simp)
  have undelimited : '$' ∉ ending.apply new := by
    intro member
    obtain ⟨c, inside, spelled⟩ := List.mem_flatMap.mp member
    split at spelled
    · cases ending <;> simp [LineEnding.terminator] at spelled
    · rw [List.mem_singleton.mp spelled] at absent
      exact absent inside
  have again := Script.ofText?_edit found parts quiet undelimited (edit.repels ending)
  refine ⟨written, ?_⟩
  rw [Script.splice, prologue, epilogue] at again
  rw [Script.splice]
  have tagged : ending.apply tag = tag :=
    ending.apply_of_not_mem fun member => absurd (isTag.visible _ member) (by decide)
  simpa [tagged] using again

/-- **When marking shows in a fingerprint.** Marking a definition whose line breaks are all of one
kind, with no comment statement between its header and the end of its body, leaves a definition. It
has the same summary, and so the same bytes to digest, unless marking disturbs the body. -/
theorem summary_ensure_eq_iff {text id : Text} {definition : Definition} (uniform : Uniform text)
    (valid : (Guid.parse? id).isSome = true) (parsed : Definition.ofText? text = some definition)
    (quiet : Remark.OpensNowhere text definition.script.before.length
      (definition.script.prologue ++ definition.script.body.written).length) :
    ∃ marked, Definition.ofText? (ensure text id) = some marked ∧
      (Utf8.encode marked.summary = Utf8.encode definition.summary ↔ ¬ Disturbed text) := by
  obtain ⟨guid, identified⟩ := Option.isSome_iff_exists.mp valid
  cases placed : place? text guid with
  | none =>
      refine ⟨definition, ?_, iff_of_true rfl ?_⟩
      · rw [ensure_of_parse? identified, placed, Option.getD_none, parsed]
      · rintro ⟨script, tag, body, normal, dollar, shows⟩
        obtain ⟨updated, updates⟩ := exists_updateBody?_of_disturbs shows guid
        obtain ⟨before, old, new, after, edit, _⟩ := updateBody?_eq_some_iff.mp updates
        rw [place?_eq_some_iff.mpr
          ⟨script, tag, body, before, old, new, after, normal, dollar, edit, rfl⟩] at placed
        cases placed
  | some marked =>
      obtain ⟨script, tag, body, before, old, new, after, normal, dollar, edit, _⟩ :=
        place?_eq_some_iff.mp placed
      simp only [Definition.ofText?, Option.map_eq_some_iff] at parsed
      obtain ⟨raw, found, rfl⟩ := parsed
      obtain ⟨written, again⟩ := ofText?_ensure uniform identified normal dollar edit found quiet
      have bare := return_not_mem_body normal dollar
      have shows : disturbs (declaresPlpgsql text) body = true ↔ Disturbed text := by
        constructor
        · exact fun shows => ⟨script, tag, body, normal, dollar, shows⟩
        · rintro ⟨other, otherTag, otherBody, otherNormal, otherDollar, shows⟩
          obtain rfl : script = other := Option.some.inj (normal.symm.trans otherNormal)
          cases dollar.symm.trans otherDollar
          exact shows
      refine ⟨_, congrArg (Option.map Definition.ofScript) again, ?_⟩
      rw [Utf8.encode_injective.eq_iff]
      refine (Definition.summary_eq_iff (by rfl) (by rfl)).trans ?_
      rw [Definition.plainLines_eq (by rfl) (edit.return_not_mem bare),
        Definition.plainLines_eq written bare, edit.countedLines_eq_iff bare, ← shows,
        Bool.not_eq_true]

/-- Marking a script with CRLF line breaks below its `BEGIN` keeps the bytes that are hashed. -/
theorem summary_ensure_emptyBlock :
    let text := LineEnding.crlf.apply emptyBlock.text
    let id := "9968C379-A8C4-4D5A-9F23-4F79E7C3B5E9".toList
    ensure text id ≠ text ∧ ∃ definition marked, Definition.ofText? text = some definition ∧
      Definition.ofText? (ensure text id) = some marked ∧
      Utf8.encode marked.summary = Utf8.encode definition.summary := by
  intro text id
  let raw : Script :=
    { emptyBlock with body := .dollar ['$', '$'] "\r\nBEGIN\r\nEND\r\n".toList }
  have parsed : Definition.ofText? text = some (.ofScript raw) := by decide +kernel
  have normal : Script.ofText? text.normalize = some emptyBlock := by decide +kernel
  obtain ⟨marked, again, same⟩ := summary_ensure_eq_iff ⟨.crlf, by decide +kernel⟩
    (by decide +kernel : (Guid.parse? id).isSome = true) parsed (by decide +kernel)
  refine ⟨by decide +kernel, _, marked, parsed, again, same.mpr ?_⟩
  rintro ⟨script, tag, body, found, dollar, shows⟩
  obtain rfl : emptyBlock = script := Option.some.inj (normal.symm.trans found)
  cases dollar
  exact absurd shows (by decide +kernel)

/-- The script `CREATE FUNCTION f() AS $$ … $$ LANGUAGE sql;` with a body that starts with a blank
row. -/
def spacedConstant : Script where
  before := []
  header := ⟨.function, "CREATE FUNCTION ".toList⟩
  name := ['f']
  arguments := []
  leading := " AS ".toList
  body := .dollar ['$', '$'] "\n\nSELECT 1;\n".toList
  trailing := " LANGUAGE sql;".toList
  remark := none
  after := []

/-- The blank row comes below the marker line, where it is no longer trimmed. -/
theorem summary_ensure_ne_of_blank_row :
    ∃ definition marked, Definition.ofText? spacedConstant.text = some definition ∧
      Definition.ofText?
        (ensure spacedConstant.text "9968C379-A8C4-4D5A-9F23-4F79E7C3B5E9".toList) = some marked ∧
      Utf8.encode marked.summary ≠ Utf8.encode definition.summary := by
  let marker := "-- @GUID \x7b9968C379-A8C4-4D5A-9F23-4F79E7C3B5E9\x7d - ".toList ++ notice
  let body : Text := '\n' :: marker ++ "\n\nSELECT 1;\n".toList
  refine ⟨.ofScript spacedConstant,
    .ofScript { spacedConstant with body := .dollar ['$', '$'] body }, ?_, ?_, ?_⟩
  · decide +kernel
  · decide +kernel
  · decide +kernel

end Marker

end RoutineScripts
