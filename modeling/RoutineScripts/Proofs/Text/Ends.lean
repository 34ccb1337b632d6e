import Mathlib.Data.List.TakeWhile
import RoutineScripts.Proofs.Text.Recogniser
import RoutineScripts.Text.Blank

/-!
# The ends of a text

The longest end of a text whose characters pass a test is what is left of the text from the last
character on that fails it (`Text.takeTail_append_cons`, `Text.dropTail_cases`).

A text with visible characters is what stands from the first to the last of them, with white space
before and after (`Text.Parts`). Trimming cuts the white space before to its last line and the white
space after to its first one (`Text.Parts.trimBlankLines_eq`); a text of white space only is cut to
its last line (`Text.trimBlankLines_of_blank`). What goes is white space that ends, or starts, with
a line break (`Text.exists_append_trimBlankLines`).
-/

namespace RoutineScripts

namespace Text

section Ends

variable {test : Char → Bool}

/-- What is kept and what is taken off the end make up the text. -/
theorem dropTail_append_takeTail (test : Char → Bool) (text : Text) :
    dropTail test text ++ takeTail test text = text := by
  rw [dropTail, takeTail, ← List.reverse_append, List.takeWhile_append_dropWhile,
    List.reverse_reverse]

theorem mem_takeTail {c : Char} {text : Text} (member : c ∈ takeTail test text) : test c = true :=
  List.all_eq_true.mp List.all_takeWhile c (List.mem_reverse.mp member)

theorem dropTail_subset (test : Char → Bool) {text : Text} : dropTail test text ⊆ text := by
  intro c member
  rw [dropTail, List.mem_reverse] at member
  exact List.mem_reverse.mp ((List.dropWhile_sublist _).subset member)

theorem takeTail_subset (test : Char → Bool) {text : Text} : takeTail test text ⊆ text := by
  intro c member
  rw [takeTail, List.mem_reverse] at member
  exact List.mem_reverse.mp ((List.takeWhile_sublist _).subset member)

theorem takeTail_append_cons {z : Char} (stops : test z = false) (front back : Text) :
    takeTail test (front ++ z :: back) = takeTail test back := by
  rw [takeTail, takeTail, List.reverse_append, List.reverse_cons, List.append_assoc,
    List.singleton_append, takeWhile_append_cons stops]

/-- A text of the class is taken off whole. -/
theorem takeTail_of_forall {text : Text} (all : ∀ c ∈ text, test c = true) :
    takeTail test text = text := by
  have reversed : ∀ c ∈ text.reverse, test c = true := fun c member =>
    all c (List.mem_reverse.mp member)
  rw [takeTail, List.takeWhile_eq_self_iff.mpr reversed, List.reverse_reverse]

theorem takeTail_eq_nil_iff (test : Char → Bool) (text : Text) :
    takeTail test text = [] ↔ text.getLast?.any test = false := by
  rw [takeTail, List.reverse_eq_nil_iff, ← List.head?_reverse]
  cases text.reverse with
  | nil => simp
  | cons c rest => cases passes : test c <;> simp [passes]

/-- A text is cut in one way before its longest end that passes the test. -/
theorem append_cons_inj_of_tail {front other gap space : Text} {c d : Char}
    (stops : test c = false) (stopsToo : test d = false) (inside : ∀ e ∈ gap, test e = true)
    (insideToo : ∀ e ∈ space, test e = true) (same : front ++ c :: gap = other ++ d :: space) :
    front = other ∧ c = d ∧ gap = space := by
  have tails := congrArg (takeTail test) same
  rw [takeTail_append_cons stops, takeTail_append_cons stopsToo, takeTail_of_forall inside,
    takeTail_of_forall insideToo] at tails
  subst tails
  obtain ⟨fronts, ends⟩ := List.append_inj' same rfl
  exact ⟨fronts, (List.cons.inj ends).1, rfl⟩

/-- What is left without its end is empty or ends in a character that fails the test. -/
theorem dropTail_cases (test : Char → Bool) (text : Text) :
    dropTail test text = [] ∨ ∃ front z, dropTail test text = front ++ [z] ∧ test z = false := by
  have stops := List.head?_dropWhile_not test text.reverse
  rw [dropTail]
  cases left : text.reverse.dropWhile test with
  | nil => exact Or.inl rfl
  | cons z rest =>
      rw [left] at stops
      exact Or.inr ⟨rest.reverse, z, by simp, by simpa using stops⟩

/-- The end of a text is what passes the test, if the character before it does not. -/
theorem tail_append {front tail : Text} (passes : ∀ c ∈ tail, test c = true)
    (stops : front.getLast?.any test = false) :
    takeTail test (front ++ tail) = tail ∧ dropTail test (front ++ tail) = front := by
  have reversed : Recogniser.run test (front ++ tail).reverse =
      some (tail.reverse, front.reverse) := by
    refine Recogniser.run_eq_some_iff.mpr ⟨List.reverse_append, ?_, ?_⟩
    · simpa using passes
    · rw [List.head?_reverse]
      exact stops
  obtain ⟨taken, dropped⟩ := Prod.mk.inj (Option.some.inj reversed)
  rw [takeTail, dropTail, taken, dropped, List.reverse_reverse, List.reverse_reverse]
  exact ⟨rfl, rfl⟩

end Ends

/-- What trimming drops is white space that ends, or starts, with a line break. -/
theorem exists_append_trimBlankLines (text : Text) :
    ∃ above below, text = above ++ text.trimBlankLines ++ below ∧
      (∀ c ∈ above, isBlank c = true) ∧ (∀ c ∈ below, isBlank c = true) ∧
      (above = [] ∨ ∃ front z, above = front ++ [z] ∧ isBreak z = true) ∧
      (below = [] ∨ ∃ z back, below = z :: back ∧ isBreak z = true) := by
  have gap : ∀ c ∈ text.takeWhile isBlank, isBlank c = true :=
    List.all_eq_true.mp List.all_takeWhile
  have front := dropTail_append_takeTail (!isBreak ·) (text.takeWhile isBlank)
  have core := dropTail_append_takeTail isBlank (text.dropWhile isBlank)
  have tail : (takeTail isBlank (text.dropWhile isBlank)).takeWhile (!isBreak ·) ++
      (takeTail isBlank (text.dropWhile isBlank)).dropWhile (!isBreak ·) =
        takeTail isBlank (text.dropWhile isBlank) := List.takeWhile_append_dropWhile
  refine ⟨dropTail (!isBreak ·) (text.takeWhile isBlank),
    (takeTail isBlank (text.dropWhile isBlank)).dropWhile (!isBreak ·), ?_, ?_, ?_, ?_, ?_⟩
  · calc text = text.takeWhile isBlank ++ text.dropWhile isBlank :=
          List.takeWhile_append_dropWhile.symm
      _ = dropTail (!isBreak ·) (text.takeWhile isBlank)
            ++ takeTail (!isBreak ·) (text.takeWhile isBlank)
            ++ (dropTail isBlank (text.dropWhile isBlank)
              ++ ((takeTail isBlank (text.dropWhile isBlank)).takeWhile (!isBreak ·)
                ++ (takeTail isBlank (text.dropWhile isBlank)).dropWhile (!isBreak ·))) := by
          rw [front, tail, core]
      _ = _ := by simp [trimBlankLines]
  · intro c member
    exact gap c (front ▸ List.mem_append_left _ member)
  · intro c member
    exact mem_takeTail (tail ▸ List.mem_append_right _ member)
  · rcases dropTail_cases (!isBreak ·) (text.takeWhile isBlank) with empty | ⟨rest, z, shape, stops⟩
    · exact Or.inl empty
    · exact Or.inr ⟨rest, z, shape, by simpa using stops⟩
  · have stops := List.head?_dropWhile_not (!isBreak ·) (takeTail isBlank (text.dropWhile isBlank))
    cases left : (takeTail isBlank (text.dropWhile isBlank)).dropWhile (!isBreak ·) with
    | nil => exact Or.inl rfl
    | cons z back =>
        rw [left] at stops
        exact Or.inr ⟨z, back, rfl, by simpa using stops⟩

/-- `core` starts and ends with a visible character, and around it there is white space. -/
structure Parts (lead core trail : Text) : Prop where
  lead : ∀ c ∈ lead, isBlank c = true
  trail : ∀ c ∈ trail, isBlank c = true
  first : ∃ v rest, core = v :: rest ∧ isBlank v = false
  last : ∃ front w, core = front ++ [w] ∧ isBlank w = false

/-- A text is white space, or has a part that starts and ends with a visible character. -/
theorem blank_or_exists_parts (text : Text) :
    (∀ c ∈ text, isBlank c = true) ∨
      ∃ lead core trail, text = lead ++ core ++ trail ∧ Parts lead core trail := by
  have whole : text.takeWhile isBlank ++ text.dropWhile isBlank = text :=
    List.takeWhile_append_dropWhile
  have gap : ∀ c ∈ text.takeWhile isBlank, isBlank c = true :=
    List.all_eq_true.mp List.all_takeWhile
  have stops := List.head?_dropWhile_not isBlank text
  have parts := dropTail_append_takeTail isBlank (text.dropWhile isBlank)
  have tail : ∀ c ∈ takeTail isBlank (text.dropWhile isBlank), isBlank c = true :=
    fun c => mem_takeTail
  rcases dropTail_cases isBlank (text.dropWhile isBlank) with none | ⟨front, w, core, visible⟩
  · refine Or.inl fun c member => ?_
    rw [← whole, ← parts, none, List.nil_append] at member
    exact (List.mem_append.mp member).elim (gap c) (tail c)
  · obtain ⟨v, others, start⟩ := List.exists_cons_of_ne_nil
      (List.append_ne_nil_of_right_ne_nil front (List.cons_ne_nil w []))
    refine Or.inr ⟨_, _, _, ?_, gap, tail, ⟨v, others, core.trans start, ?_⟩, front, w, core,
      visible⟩
    · rw [List.append_assoc, parts, whole]
    · rw [← parts, core, start] at stops
      simpa using stops

namespace Parts

variable {lead core trail : Text}

/-- The white space before the first visible character. -/
theorem span_eq (parts : Parts lead core trail) :
    (lead ++ core ++ trail).takeWhile isBlank = lead ∧
      (lead ++ core ++ trail).dropWhile isBlank = core ++ trail := by
  obtain ⟨v, rest, rfl, visible⟩ := parts.first
  rw [List.append_assoc, List.takeWhile_append_of_pos parts.lead,
    List.dropWhile_append_of_pos parts.lead, List.cons_append,
    List.takeWhile_cons_of_neg (by simp [visible]), List.dropWhile_cons_of_neg (by simp [visible]),
    List.append_nil]
  exact ⟨rfl, rfl⟩

/-- The white space after the last visible character. -/
theorem tail_eq (parts : Parts lead core trail) (front : Text) :
    takeTail isBlank (front ++ core ++ trail) = trail ∧
      dropTail isBlank (front ++ core ++ trail) = front ++ core := by
  obtain ⟨inner, w, rfl, visible⟩ := parts.last
  refine tail_append parts.trail ?_
  rw [← List.append_assoc, List.getLast?_concat, Option.any_some, visible]

/-- **Trimming a text with visible characters** cuts the white space around them. -/
theorem trimBlankLines_eq (parts : Parts lead core trail) :
    (lead ++ core ++ trail).trimBlankLines =
      takeTail (!isBreak ·) lead ++ core ++ trail.takeWhile (!isBreak ·) := by
  obtain ⟨before, after⟩ := parts.span_eq
  obtain ⟨tail, front⟩ := parts.tail_eq []
  rw [trimBlankLines, before, after]
  rw [List.nil_append] at tail front
  rw [tail, front]

/-- What is left has the same visible part. -/
theorem trim (parts : Parts lead core trail) :
    Parts (takeTail (!isBreak ·) lead) core (trail.takeWhile (!isBreak ·)) where
  lead c member := parts.lead c (takeTail_subset _ member)
  trail c member := parts.trail c ((List.takeWhile_sublist _).subset member)
  first := parts.first
  last := parts.last

end Parts

/-- Of white space trimming leaves what stands after the last line break. -/
theorem trimBlankLines_of_blank {text : Text} (blank : ∀ c ∈ text, isBlank c = true) :
    text.trimBlankLines = takeTail (!isBreak ·) text := by
  rw [trimBlankLines, List.takeWhile_eq_self_iff.mpr blank, List.dropWhile_eq_nil_iff.mpr blank]
  simp [dropTail, takeTail]

/-- What trimming leaves of a text with visible characters: the part from the first to the last of
them, with what stands on their lines before and after. -/
theorem exists_parts_trimBlankLines {text : Text} (visible : ∃ c ∈ text, isBlank c = false) :
    ∃ lead core trail, text.trimBlankLines = lead ++ core ++ trail ∧ Parts lead core trail ∧
      (∀ c ∈ lead, isBreak c = false) ∧ ∀ c ∈ trail, isBreak c = false := by
  rcases blank_or_exists_parts text with blank | ⟨lead, core, trail, rfl, parts⟩
  · obtain ⟨v, inside, shown⟩ := visible
    rw [blank v inside] at shown
    cases shown
  · refine ⟨_, _, _, parts.trimBlankLines_eq, parts.trim, fun c member => ?_, fun c member => ?_⟩
    · simpa using mem_takeTail member
    · simpa using List.all_eq_true.mp List.all_takeWhile c member

end Text

end RoutineScripts
