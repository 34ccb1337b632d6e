import RoutineScripts.Proofs.Text.Ends
import RoutineScripts.Proofs.Text.LineEnding

/-!
# Rows

The rows of a text are its parts between line breaks, so a text that ends in a line break has an
empty last row. Putting texts together joins the last row of one and the first row of the other
(`Text.exists_rows_append`).

Trimming a text that has visible characters drops the blank rows at both ends and nothing else
(`Text.lines_trimBlankLines`). Of a text without visible characters it leaves the last row
(`Text.lines_trimBlankLines_of_blank`).
-/

namespace RoutineScripts

namespace Text

/-- The row that a text starts with. -/
def firstRow (text : Text) : Text :=
  text.takeWhile (· != '\n')

/-- The row that a text ends with. -/
def lastRow (text : Text) : Text :=
  takeTail (· != '\n') text

/-- The rows of a text after its first one. -/
def laterRows : Text → List Text
  | [] => []
  | c :: rest => if c = '\n' then firstRow rest :: laterRows rest else laterRows rest

/-- The parts of a text between its line breaks. -/
def rows (text : Text) : List Text :=
  firstRow text :: laterRows text

theorem rows_cons (c : Char) (rest : Text) :
    rows (c :: rest) =
      if c = '\n' then [] :: rows rest else (c :: firstRow rest) :: laterRows rest := by
  by_cases isFeed : c = '\n' <;> simp [rows, firstRow, laterRows, isFeed]

/-- The rows around a line feed are those of the two parts. -/
theorem rows_append_newline (front back : Text) :
    rows (front ++ '\n' :: back) = rows front ++ rows back := by
  induction front with
  | nil => simp [rows, firstRow, laterRows]
  | cons c front ih =>
      rw [List.cons_append, rows_cons, rows_cons, ih]
      split
      · rfl
      · have parts := List.cons.inj ih
        rw [firstRow, firstRow, takeWhile_append_cons (by simp), List.cons_append]
        exact congrArg _ parts.2

/-- A front without line feeds belongs to the first row. -/
theorem rows_append_of_not_mem {front : Text} (unbroken : '\n' ∉ front) (back : Text) :
    rows (front ++ back) = (front ++ firstRow back) :: laterRows back := by
  induction front with
  | nil => rfl
  | cons c front ih =>
      simp only [List.mem_cons, not_or] at unbroken
      have parts := List.cons.inj (ih unbroken.2)
      rw [List.cons_append, rows_cons, if_neg (Ne.symm unbroken.1), parts.1, parts.2,
        List.cons_append]

/-- **Rows of texts put together.** The last row of the front and the first row of the back are
joined, and what comes before does not depend on the back. -/
theorem exists_rows_append (front : Text) :
    ∃ above, ∀ back, rows (front ++ back) = above ++ (lastRow front ++ firstRow back) ::
      laterRows back := by
  by_cases broken : '\n' ∈ front.reverse
  · obtain ⟨row, rest, split, absent⟩ := List.eq_append_cons_of_mem broken
    have shape : front = rest.reverse ++ '\n' :: row.reverse := by
      rw [← List.reverse_reverse front, split]
      simp
    have unbroken : '\n' ∉ row.reverse := by simpa using absent
    have last : lastRow front = row.reverse := by
      rw [shape, lastRow, takeTail_append_cons (by simp),
        takeTail_of_forall (bne_newline_of_not_mem unbroken)]
    refine ⟨rows rest.reverse, fun back => ?_⟩
    rw [last, shape, List.append_assoc, List.cons_append, rows_append_newline,
      rows_append_of_not_mem unbroken]
  · have unbroken : '\n' ∉ front := by simpa using broken
    have last : lastRow front = front := takeTail_of_forall (bne_newline_of_not_mem unbroken)
    exact ⟨[], fun back => by rw [last, rows_append_of_not_mem unbroken, List.nil_append]⟩

/-- The later rows of a text end with those of its back. -/
theorem exists_laterRows_append (front back : Text) :
    ∃ between, laterRows (front ++ back) = between ++ laterRows back := by
  obtain ⟨above, joined⟩ := exists_rows_append front
  have split := joined back
  cases above with
  | nil => exact ⟨[], (List.cons.inj split).2⟩
  | cons row above => exact ⟨above ++ [_], by simpa using (List.cons.inj split).2⟩

theorem mem_of_mem_rows {text row : Text} (inside : row ∈ rows text) :
    '\n' ∉ row ∧ ∀ c ∈ row, c ∈ text := by
  induction text generalizing row with
  | nil =>
      obtain rfl : row = [] := by simpa [rows, firstRow, laterRows] using inside
      simp
  | cons c rest ih =>
      rw [rows_cons] at inside
      split at inside
      case isTrue =>
        rcases List.mem_cons.mp inside with rfl | later
        · simp
        · obtain ⟨unbroken, members⟩ := ih later
          exact ⟨unbroken, fun d member => List.mem_cons_of_mem _ (members d member)⟩
      case isFalse notFeed =>
        rcases List.mem_cons.mp inside with rfl | later
        · obtain ⟨unbroken, members⟩ := ih (List.mem_cons_self : firstRow rest ∈ rows rest)
          simp only [List.mem_cons, not_or]
          exact ⟨⟨Ne.symm notFeed, unbroken⟩, fun d member => member.imp_right (members d)⟩
        · obtain ⟨unbroken, members⟩ := ih (List.mem_cons_of_mem _ later)
          exact ⟨unbroken, fun d member => List.mem_cons_of_mem _ (members d member)⟩

/-- Every character but the line feed stands in a row. -/
theorem exists_mem_rows {text : Text} {c : Char} (member : c ∈ text) (differs : c ≠ '\n') :
    ∃ row ∈ rows text, c ∈ row := by
  obtain ⟨front, back, rfl⟩ := List.append_of_mem member
  obtain ⟨above, joined⟩ := exists_rows_append front
  refine ⟨lastRow front ++ firstRow (c :: back), ?_, ?_⟩
  · rw [joined]
    simp
  · simp [firstRow, differs]

/-- A text that does not end in a line break has its rows as lines. -/
theorem lines_eq_rows {text : Text} (ends : text.getLast?.any (· != '\n') = true) :
    text.lines = rows text := by
  induction text with
  | nil => cases ends
  | cons c rest ih =>
      cases rest with
      | nil =>
          have notFeed : c ≠ '\n' := by simpa using ends
          simp [lines, rows_cons, firstRow, laterRows, notFeed]
      | cons d rest =>
          have later := ih (by simpa [List.getLast?_cons] using ends)
          rw [rows_cons, lines, later]
          split <;> rfl

section Trimming

/-- Whether a row holds white space only. -/
def isBlankRow (row : Text) : Bool :=
  row.all isBlank

/-- Rows without the blank ones at the end. -/
def dropBlankEnd (list : List Text) : List Text :=
  (list.reverse.dropWhile isBlankRow).reverse

/-- Rows without the blank ones at both ends. -/
def trimRows (list : List Text) : List Text :=
  dropBlankEnd (list.dropWhile isBlankRow)

variable {row : Text}

theorem dropBlankEnd_append_cons (visible : isBlankRow row = false) (above below : List Text) :
    dropBlankEnd (above ++ row :: below) = above ++ row :: dropBlankEnd below := by
  rw [dropBlankEnd, List.reverse_append, List.reverse_cons, List.append_assoc,
    List.singleton_append, dropWhile_append_cons visible, dropBlankEnd]
  simp

/-- Rows above keep what is dropped from the end below them. -/
theorem exists_dropBlankEnd_append (above below : List Text) :
    ∃ kept, dropBlankEnd (above ++ below) = kept ++ dropBlankEnd below := by
  rw [dropBlankEnd, dropBlankEnd, List.reverse_append, List.dropWhile_append]
  split
  case isTrue empty =>
    rw [List.isEmpty_iff.mp empty, List.reverse_nil]
    exact ⟨_, (List.append_nil _).symm⟩
  case isFalse =>
    rw [List.reverse_append, List.reverse_reverse]
    exact ⟨above, rfl⟩

theorem trimRows_append_cons (visible : isBlankRow row = false) (above below : List Text) :
    trimRows (above ++ row :: below) =
      above.dropWhile isBlankRow ++ row :: dropBlankEnd below := by
  rw [trimRows, dropWhile_append_cons visible, dropBlankEnd_append_cons visible]

/-- Blank rows are all dropped. -/
theorem dropBlankEnd_of_blank {list : List Text} (blank : ∀ row ∈ list, isBlankRow row = true) :
    dropBlankEnd list = [] := by
  have reversed : ∀ row ∈ list.reverse, isBlankRow row = true := fun row member =>
    blank row (List.mem_reverse.mp member)
  rw [dropBlankEnd, List.dropWhile_eq_nil_iff.mpr reversed, List.reverse_nil]

/-- The rows of a blank text are blank. -/
theorem isBlankRow_of_mem_rows {text : Text} (blank : ∀ c ∈ text, isBlank c = true) :
    ∀ row ∈ rows text, isBlankRow row = true := by
  intro row member
  rw [isBlankRow, List.all_eq_true]
  exact fun c inside => blank c ((mem_of_mem_rows member).2 c inside)

end Trimming

/-- A row with a visible character is not blank. -/
theorem isBlankRow_of_mem {row : Text} {c : Char} (member : c ∈ row) (visible : isBlank c = false) :
    isBlankRow row = false := by
  rw [isBlankRow, List.all_eq_false]
  exact ⟨c, member, by simp [visible]⟩

/-- A text without line feeds is one row. -/
theorem rows_of_not_mem {text : Text} (unbroken : '\n' ∉ text) : rows text = [text] := by
  have joined := rows_append_of_not_mem unbroken []
  rw [List.append_nil] at joined
  rw [joined]
  simp [firstRow, laterRows]

/-- The rows of a text with white space around it that breaks no line. -/
theorem Parts.exists_rows {lead core trail : Text} (parts : Parts lead core trail)
    (leadUnbroken : '\n' ∉ lead) (trailUnbroken : '\n' ∉ trail) :
    isBlankRow (firstRow (lead ++ core ++ trail)) = false ∧
      (∃ above row, rows (lead ++ core ++ trail) = above ++ [row] ∧ isBlankRow row = false) ∧
      (lead ++ core ++ trail).getLast?.any (· != '\n') = true := by
  have shown {c : Char} (seen : isBlank c = false) : '\n' ≠ c := by
    rintro rfl
    cases seen
  refine ⟨?_, ?_, ?_⟩
  · obtain ⟨v, rest, rfl, visible⟩ := parts.first
    have unbroken : '\n' ∉ lead ++ [v] := by simp [leadUnbroken, shown visible]
    have joined := (List.cons.inj (rows_append_of_not_mem unbroken (rest ++ trail))).1
    have shape : lead ++ v :: rest ++ trail = lead ++ [v] ++ (rest ++ trail) := by simp
    rw [shape, joined]
    exact isBlankRow_of_mem (by simp) visible
  · obtain ⟨front, w, rfl, visible⟩ := parts.last
    have unbroken : '\n' ∉ w :: trail := by simp [trailUnbroken, shown visible]
    obtain ⟨above, joined⟩ := exists_rows_append (lead ++ front)
    obtain ⟨row, none⟩ := List.cons.inj (rows_of_not_mem unbroken)
    have shape : lead ++ (front ++ [w]) ++ trail = lead ++ front ++ w :: trail := by simp
    refine ⟨above, lastRow (lead ++ front) ++ w :: trail, ?_, isBlankRow_of_mem (by simp) visible⟩
    rw [shape, joined, row, none]
  · obtain ⟨front, w, rfl, visible⟩ := parts.last
    have unbroken : '\n' ∉ w :: trail := by simp [trailUnbroken, shown visible]
    have shape : lead ++ (front ++ [w]) ++ trail = lead ++ front ++ w :: trail := by simp
    rw [shape, List.getLast?_append, List.getLast?_eq_some_getLast (List.cons_ne_nil w trail),
      Option.some_or, Option.any_some]
    exact bne_newline_of_not_mem unbroken _ (List.getLast_mem _)

/-- Blank lines above a text are blank rows above its own. -/
theorem exists_rows_above {above : Text} (bare : '\r' ∉ above)
    (blank : ∀ c ∈ above, isBlank c = true)
    (ends : above = [] ∨ ∃ front z, above = front ++ [z] ∧ isBreak z = true) :
    ∃ passed, (∀ row ∈ passed, isBlankRow row = true) ∧
      ∀ back, rows (above ++ back) = passed ++ rows back := by
  rcases ends with rfl | ⟨front, z, rfl, breaks⟩
  · exact ⟨[], by simp, fun back => rfl⟩
  · obtain rfl : z = '\n' := by
      refine (eq_of_isBreak breaks).resolve_right ?_
      rintro rfl
      simp at bare
    refine ⟨rows front, isBlankRow_of_mem_rows fun c member => blank c (by simp [member]), ?_⟩
    intro back
    rw [List.append_assoc, List.singleton_append, rows_append_newline]

/-- Blank lines below a text are blank rows below its own. -/
theorem exists_rows_below {below : Text} (bare : '\r' ∉ below)
    (blank : ∀ c ∈ below, isBlank c = true)
    (starts : below = [] ∨ ∃ z back, below = z :: back ∧ isBreak z = true) :
    ∃ left, (∀ row ∈ left, isBlankRow row = true) ∧
      ∀ front, rows (front ++ below) = rows front ++ left := by
  rcases starts with rfl | ⟨z, back, rfl, breaks⟩
  · exact ⟨[], by simp, fun front => by simp⟩
  · obtain rfl : z = '\n' := by
      refine (eq_of_isBreak breaks).resolve_right ?_
      rintro rfl
      simp at bare
    refine ⟨rows back, isBlankRow_of_mem_rows fun c member => blank c (by simp [member]), ?_⟩
    intro front
    rw [rows_append_newline]

/-- **Trimming drops blank rows.** A text with visible characters loses the blank rows at both ends
and nothing else. -/
theorem lines_trimBlankLines {text : Text} (bare : '\r' ∉ text)
    (visible : ∃ c ∈ text, isBlank c = false) :
    text.trimBlankLines.lines = trimRows (rows text) := by
  obtain ⟨above, below, split, aboveBlank, belowBlank, aboveEnds, belowStarts⟩ :=
    exists_append_trimBlankLines text
  obtain ⟨lead, core, trail, shape, parts, front, back⟩ := exists_parts_trimBlankLines visible
  have left := parts.exists_rows (fun member => by cases front _ member)
    fun member => by cases back _ member
  rw [← shape] at left
  obtain ⟨firstVisible, ⟨others, row, rowsShape, lastVisible⟩, ends⟩ := left
  rw [split] at bare
  simp only [List.mem_append, not_or] at bare
  obtain ⟨passed, passedBlank, joinedAbove⟩ := exists_rows_above bare.1.1 aboveBlank aboveEnds
  obtain ⟨left, leftBlank, joinedBelow⟩ := exists_rows_below bare.2 belowBlank belowStarts
  have whole : rows text = passed ++ (rows text.trimBlankLines ++ left) := by
    conv => lhs; rw [split]
    rw [List.append_assoc, joinedAbove, joinedBelow]
  have dropped : trimRows (passed ++ (rows text.trimBlankLines ++ left)) =
      dropBlankEnd (rows text.trimBlankLines ++ left) := by
    rw [trimRows, List.dropWhile_append_of_pos passedBlank, rows, List.cons_append,
      List.dropWhile_cons_of_neg (by simp [firstVisible])]
  rw [lines_eq_rows ends, whole, dropped, rowsShape, List.append_assoc, List.singleton_append,
    dropBlankEnd_append_cons lastVisible, dropBlankEnd_of_blank leftBlank]

/-- Of a text without visible characters trimming leaves the last row, unless that is empty. -/
theorem lines_trimBlankLines_of_blank {text : Text} (bare : '\r' ∉ text)
    (blank : ∀ c ∈ text, isBlank c = true) :
    isBlankRow text.trimBlankLines = true ∧
      text.trimBlankLines.lines =
        if text.getLast?.any (· != '\n') then [text.trimBlankLines] else [] := by
  have shape := trimBlankLines_of_blank blank
  have unbroken : '\n' ∉ text.trimBlankLines := by
    rw [shape]
    intro member
    exact absurd (mem_takeTail member) (by decide)
  have inside : ∀ c ∈ text.trimBlankLines, c ∈ text := by
    intro c member
    rw [shape] at member
    exact takeTail_subset _ member
  have last : text.getLast?.any (!isBreak ·) = text.getLast?.any (· != '\n') := by
    cases ends : text.getLast? with
    | none => rfl
    | some c =>
        have notReturn : c ≠ '\r' := by
          rintro rfl
          exact bare (List.mem_of_getLast? ends)
        rw [Option.any_some, Option.any_some, isBreak, beq_eq_false_iff_ne.mpr notReturn,
          Bool.or_false]
        rfl
  refine ⟨?_, ?_⟩
  · rw [isBlankRow, List.all_eq_true]
    exact fun c member => blank c (inside c member)
  · by_cases nothing : text.trimBlankLines = []
    · rw [shape, takeTail_eq_nil_iff, last] at nothing
      rw [nothing, shape, (takeTail_eq_nil_iff _ _).mpr (last.trans nothing)]
      rfl
    · have ends : text.getLast?.any (· != '\n') = true := by
        rw [← last, ← Bool.not_eq_false]
        exact fun empty => nothing (shape.trans ((takeTail_eq_nil_iff _ _).mpr empty))
      rw [if_pos ends, lines_eq_rows, rows_of_not_mem unbroken]
      rw [List.getLast?_eq_some_getLast nothing, Option.any_some]
      exact bne_newline_of_not_mem unbroken _ (List.getLast_mem nothing)

end Text

end RoutineScripts
