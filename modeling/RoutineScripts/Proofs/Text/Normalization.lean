import RoutineScripts.Proofs.Text.LineEnding
import RoutineScripts.Proofs.Text.Rows
import RoutineScripts.Text.WordCharacter

/-!
# Reading a normalised text

Normalising a text goes together with everything that treats line breaks alike. It goes together
with putting texts together, unless that makes a `\r\n` (`Text.normalize_append`). No run of
characters that is taken or dropped, no trimming and no part found before a visible character cuts
a `\r\n`, so each of them may come before or after normalising (`Text.span_normalize`,
`Text.trimBlankLines_normalize`, `Text.search_normalize`), and so may every recogniser of words and
white space (`Recogniser.Normalizes`).
-/

namespace RoutineScripts

namespace Text

/-- What a normalised text has for a character, given the one that follows it. -/
def unified (c : Char) (next : Option Char) : Text :=
  if c = '\r' then if next = some '\n' then [] else ['\n'] else [c]

/-- Normalization reads one character and the one that follows it. -/
theorem normalize_cons_eq (c : Char) (rest : Text) :
    normalize (c :: rest) = unified c rest.head? ++ normalize rest := by
  by_cases isReturn : c = '\r'
  · subst isReturn
    cases rest with
    | nil => rfl
    | cons d rest =>
        by_cases feeds : d = '\n'
        · subst feeds
          rw [normalize, normalize.eq_3 _ _ (by simp)]
          simp [unified]
        · rw [normalize.eq_3 _ _ (by simp [feeds])]
          simp [unified, feeds]
  · rw [normalize.eq_3 _ _ fun _ same _ => isReturn same, if_neg isReturn]
    simp [unified, isReturn]

/-- A character that is no return is kept. -/
theorem unified_of_ne {c : Char} (notReturn : c ≠ '\r') (next : Option Char) :
    unified c next = [c] :=
  if_neg notReturn

/-- A character that breaks no line is no return. -/
theorem ne_return_of_visible {c : Char} (visible : isBreak c = false) : c ≠ '\r' := by
  rintro rfl
  cases visible

/-- A character that breaks no line is no line feed. -/
theorem ne_newline_of_visible {c : Char} (visible : isBreak c = false) : c ≠ '\n' := by
  rintro rfl
  cases visible

theorem normalize_cons {c : Char} (visible : isBreak c = false) (rest : Text) :
    normalize (c :: rest) = c :: normalize rest := by
  rw [normalize_cons_eq, unified_of_ne (ne_return_of_visible visible), List.singleton_append]

/-- A character stays, or a line break is dropped in front of a `\n`, or becomes one. -/
theorem unified_cases (c : Char) (next : Option Char) :
    unified c next = [c] ∧ c ≠ '\r' ∨ unified c next = [] ∧ c = '\r' ∧ next = some '\n' ∨
      unified c next = ['\n'] ∧ c = '\r' ∧ next ≠ some '\n' := by
  rw [unified]
  split
  · split
    · exact Or.inr (Or.inl ⟨rfl, ‹_›, ‹_›⟩)
    · exact Or.inr (Or.inr ⟨rfl, ‹_›, ‹_›⟩)
  · exact Or.inl ⟨rfl, ‹_›⟩

/-- A text without line breaks is kept. -/
theorem normalize_of_visible {text : Text} (visible : ∀ c ∈ text, isBreak c = false) :
    text.normalize = text := by
  induction text with
  | nil => rfl
  | cons c rest ih =>
      obtain ⟨first, others⟩ := List.forall_mem_cons.mp visible
      rw [normalize_cons first, ih others]

/-- A text without returns is kept. -/
theorem normalize_of_not_mem {text : Text} (bare : '\r' ∉ text) : text.normalize = text := by
  induction text with
  | nil => rfl
  | cons c rest ih =>
      simp only [List.mem_cons, not_or] at bare
      rw [normalize_cons_eq, unified_of_ne (Ne.symm bare.1), ih bare.2, List.singleton_append]

/-- Normalization is idempotent. -/
theorem normalize_normalize (text : Text) : text.normalize.normalize = text.normalize :=
  normalize_of_not_mem (return_not_mem_normalize text)

/-! ### Putting texts together -/

/-- No `\r\n` stands across the cut between two parts. -/
def CleanCut (front back : Text) : Prop :=
  front.getLast? = some '\r' → back.head? ≠ some '\n'

theorem cleanCut_nil (back : Text) : CleanCut [] back := by
  intro last
  cases last

theorem cleanCut_cons {z : Char} (front : Text) (visible : isBreak z = false) (back : Text) :
    CleanCut front (z :: back) := by
  intro _ head
  cases head
  cases visible

/-- A cut after a text without line breaks is clean. -/
theorem cleanCut_of_visible {front : Text} (visible : ∀ c ∈ front, isBreak c = false)
    (back : Text) : CleanCut front back := by
  intro last
  cases visible _ (List.mem_of_getLast? last)

/-- A clean cut stays clean when what follows is shortened. -/
theorem CleanCut.of_append {front middle back : Text} (clean : CleanCut front (middle ++ back)) :
    CleanCut front middle := by
  intro last head
  refine clean last ?_
  rw [List.head?_append, head, Option.some_or]

theorem CleanCut.of_cons {c : Char} {front back : Text} (clean : CleanCut (c :: front) back) :
    CleanCut front back := by
  intro last
  refine clean ?_
  rw [List.getLast?_cons, last, Option.getD_some]

/-- **Normalising part by part.** -/
theorem normalize_append {front back : Text} (clean : CleanCut front back) :
    normalize (front ++ back) = front.normalize ++ back.normalize := by
  induction front with
  | nil => rfl
  | cons c front ih =>
      have next : unified c (front ++ back).head? = unified c front.head? := by
        cases front with
        | cons d front => rfl
        | nil =>
            by_cases isReturn : c = '\r'
            · have apart : back.head? ≠ some '\n' := clean (by simp [isReturn])
              simp [unified, apart]
            · rw [unified_of_ne isReturn, unified_of_ne isReturn]
      rw [List.cons_append, normalize_cons_eq, normalize_cons_eq, ih clean.of_cons, next,
        List.append_assoc]

theorem normalize_append_cons {z : Char} (visible : isBreak z = false) (front back : Text) :
    normalize (front ++ z :: back) = front.normalize ++ z :: back.normalize := by
  rw [normalize_append (cleanCut_cons front visible back), normalize_cons visible]

/-- A front without line breaks is kept. -/
theorem normalize_append_of_visible {front : Text} (visible : ∀ c ∈ front, isBreak c = false)
    (back : Text) : normalize (front ++ back) = front ++ back.normalize := by
  rw [normalize_append (cleanCut_of_visible visible back), normalize_of_visible visible]

/-- A character is the first one of a `\r\n` in a front only, if at all. -/
theorem CleanCut.lone {c : Char} {front back : Text} (clean : CleanCut (c :: front) back)
    (lone : ∀ tail, c = '\r' → front = '\n' :: tail → False) :
    ∀ tail, c = '\r' → front ++ back = '\n' :: tail → False := by
  intro tail isReturn shape
  cases front with
  | nil => exact clean (by rw [isReturn]; rfl) (by rw [← List.nil_append back, shape]; rfl)
  | cons d front => exact lone front isReturn (by rw [(List.cons.inj shape).1])

/-- The line breaks of two parts are those of the parts. -/
theorem breaks_append {front back : Text} (clean : CleanCut front back) :
    breaks (front ++ back) = breaks front ++ breaks back := by
  induction front using normalize.induct with
  | case1 => rfl
  | case2 rest ih =>
      rw [List.cons_append, List.cons_append, breaks, ih clean.of_cons.of_cons, breaks,
        List.cons_append]
  | case3 c rest lone ih =>
      rw [List.cons_append, breaks.eq_3 _ _ (clean.lone lone), breaks.eq_3 _ _ lone,
        ih clean.of_cons]
      split
      · rfl
      · split <;> rfl

/-- **Parts of a text in one convention** are in that convention. -/
theorem apply_normalize_of_append {front back : Text} (clean : CleanCut front back)
    {ending : LineEnding} (uniform : ∀ kind ∈ breaks (front ++ back), kind = ending) :
    ending.apply front.normalize = front ∧ ∀ kind ∈ back.breaks, kind = ending := by
  rw [breaks_append clean] at uniform
  obtain ⟨inFront, inBack⟩ := List.forall_mem_append.mp uniform
  exact ⟨LineEnding.apply_normalize_of_breaks inFront, inBack⟩

/-! ### Tests that treat line breaks alike -/

section Alike

variable {test : Char → Bool}

/-- A class that holds both line break characters, or neither, covers the same texts. -/
theorem all_normalize (alike : test '\r' = test '\n') (text : Text) :
    text.normalize.all test = text.all test := by
  induction text with
  | nil => rfl
  | cons c rest ih =>
      rw [normalize_cons_eq, List.all_append, ih, List.all_cons]
      rcases unified_cases c rest.head? with ⟨shape, _⟩ | ⟨shape, rfl, next⟩ | ⟨shape, rfl, _⟩
      · simp [shape]
      · rw [shape]
        obtain ⟨tail, rfl⟩ := List.head?_eq_some_iff.mp next
        simp [alike]
      · simp [shape, alike]

/-- A test that treats line breaks alike sees the same at the front of a normalised text. -/
theorem any_head?_normalize (alike : test '\r' = test '\n') (text : Text) :
    text.normalize.head?.any test = text.head?.any test := by
  cases text with
  | nil => rfl
  | cons c rest =>
      rw [normalize_cons_eq]
      rcases unified_cases c rest.head? with ⟨shape, _⟩ | ⟨shape, rfl, next⟩ | ⟨shape, rfl, _⟩
      · simp [shape]
      · rw [shape]
        obtain ⟨tail, rfl⟩ := List.head?_eq_some_iff.mp next
        simp [alike, normalize_cons_eq, unified]
      · simp [shape, alike]

theorem normalize_eq_nil_iff {text : Text} : text.normalize = [] ↔ text = [] := by
  have heads := @any_head?_normalize (fun _ => true) rfl text
  constructor
  · intro empty
    rw [empty] at heads
    cases text with
    | nil => rfl
    | cons c rest => cases heads
  · rintro rfl
    rfl

theorem any_getLast?_normalize (alike : test '\r' = test '\n') (text : Text) :
    text.normalize.getLast?.any test = text.getLast?.any test := by
  induction text with
  | nil => rfl
  | cons c rest ih =>
      rw [normalize_cons_eq, List.getLast?_append]
      cases rest with
      | nil => by_cases isReturn : c = '\r' <;> simp [unified, normalize, isReturn, alike]
      | cons d rest =>
          have nonempty : normalize (d :: rest) ≠ [] := fun empty =>
            List.cons_ne_nil d rest (normalize_eq_nil_iff.mp empty)
          rw [List.getLast?_eq_some_getLast nonempty] at ih ⊢
          rw [Option.some_or, ih, List.getLast?_cons_cons]

/-- **Runs ignore the kind of line breaks.** -/
theorem span_normalize (alike : test '\r' = test '\n') (text : Text) :
    text.normalize.takeWhile test = normalize (text.takeWhile test) ∧
      text.normalize.dropWhile test = normalize (text.dropWhile test) := by
  obtain ⟨_, passes, stops⟩ := Recogniser.run_eq_some_iff.mp
    (show Recogniser.run test text = some (text.takeWhile test, text.dropWhile test) from rfl)
  have clean : CleanCut (text.takeWhile test) (text.dropWhile test) := by
    intro last head
    rw [head, Option.any_some, ← alike, passes _ (List.mem_of_getLast? last)] at stops
    cases stops
  have again : Recogniser.run test text.normalize =
      some (normalize (text.takeWhile test), normalize (text.dropWhile test)) := by
    refine Recogniser.run_eq_some_iff.mpr ⟨?_, ?_, ?_⟩
    · rw [← normalize_append clean, List.takeWhile_append_dropWhile]
    · rw [← List.all_eq_true, all_normalize alike, List.all_eq_true]
      exact passes
    · rw [any_head?_normalize alike, stops]
  exact Prod.mk.inj (Option.some.inj again)

/-- Taking the front of such a class commutes with normalization. -/
theorem takeWhile_normalize (alike : test '\r' = test '\n') (text : Text) :
    text.normalize.takeWhile test = normalize (text.takeWhile test) :=
  (span_normalize alike text).1

/-- Dropping the front of such a class commutes with normalization. -/
theorem dropWhile_normalize (alike : test '\r' = test '\n') (text : Text) :
    text.normalize.dropWhile test = normalize (text.dropWhile test) :=
  (span_normalize alike text).2

/-- **Ends ignore the kind of line breaks.** -/
theorem tail_normalize (alike : test '\r' = test '\n') (text : Text) :
    takeTail test text.normalize = normalize (takeTail test text) ∧
      dropTail test text.normalize = normalize (dropTail test text) := by
  have whole := dropTail_append_takeTail test text
  have passes : ∀ c ∈ takeTail test text, test c = true := fun c => mem_takeTail
  have stops : (dropTail test text).getLast?.any test = false := by
    rcases dropTail_cases test text with empty | ⟨front, z, shape, fails⟩
    · rw [empty]
      rfl
    · rw [shape]
      simpa using fails
  have clean : CleanCut (dropTail test text) (takeTail test text) := by
    intro last head
    rw [last, Option.any_some, alike, passes _ (List.mem_of_head? head)] at stops
    cases stops
  have passesToo : ∀ c ∈ normalize (takeTail test text), test c = true := by
    rw [← List.all_eq_true, all_normalize alike, List.all_eq_true]
    exact passes
  have stopsToo : (normalize (dropTail test text)).getLast?.any test = false := by
    rw [any_getLast?_normalize alike, stops]
  have again := tail_append passesToo stopsToo
  rwa [← normalize_append clean, whole] at again

end Alike

/-- Trimming commutes with normalization. -/
theorem trim_normalize (text : Text) : text.normalize.trim = text.trim.normalize := by
  have alike : isBlank '\r' = isBlank '\n' := by decide
  rw [trim, dropWhile_normalize alike, (tail_normalize alike _).2, trim]

/-- **Trimming ignores the kind of line breaks.** -/
theorem trimBlankLines_normalize (text : Text) :
    text.normalize.trimBlankLines = text.trimBlankLines.normalize := by
  have alike : isBlank '\r' = isBlank '\n' := by decide
  have unbroken : (!isBreak '\r') = !isBreak '\n' := by decide
  have indent : ∀ c ∈ takeTail (!isBreak ·) (text.takeWhile isBlank), isBreak c = false :=
    fun c member => by simpa using mem_takeTail member
  have trail : ∀ c ∈ (takeTail isBlank (text.dropWhile isBlank)).takeWhile (!isBreak ·),
      isBreak c = false := fun c member => by
    simpa using List.all_eq_true.mp List.all_takeWhile c member
  have clean : CleanCut (dropTail isBlank (text.dropWhile isBlank))
      ((takeTail isBlank (text.dropWhile isBlank)).takeWhile (!isBreak ·)) := by
    intro _ head
    cases trail _ (List.mem_of_head? head)
  have ends (part : Text) := (@tail_normalize (!isBreak ·) unbroken part).1
  have starts (part : Text) := @takeWhile_normalize (!isBreak ·) unbroken part
  rw [trimBlankLines, trimBlankLines, List.append_assoc, List.append_assoc,
    normalize_append_of_visible indent, normalize_append clean, dropWhile_normalize alike,
    takeWhile_normalize alike, ends, (tail_normalize alike _).1, (tail_normalize alike _).2, starts,
    normalize_of_visible indent]

/-! ### Visible parts -/

/-- A visible character is neither of the two that break a line. -/
theorem beq_return_eq {z : Char} (visible : isBreak z = false) : ('\r' == z) = ('\n' == z) := by
  rw [beq_eq_false_iff_ne.mpr (ne_return_of_visible visible).symm,
    beq_eq_false_iff_ne.mpr (ne_newline_of_visible visible).symm]

/-- A first character that breaks no line is read the same in both texts. -/
theorem head?_normalize_eq_some_iff {z : Char} (visible : isBreak z = false) (text : Text) :
    text.normalize.head? = some z ↔ text.head? = some z := by
  have heads := @any_head?_normalize (· == z) (beq_return_eq visible) text
  have iff (head : Option Char) : head = some z ↔ head.any (· == z) = true := by
    cases head <;> simp
  rw [iff, heads, ← iff]

/-- A last character that breaks no line is read the same in both texts. -/
theorem getLast?_normalize_eq_some_iff {z : Char} (visible : isBreak z = false) (text : Text) :
    text.normalize.getLast? = some z ↔ text.getLast? = some z := by
  have lasts := @any_getLast?_normalize (· == z) (beq_return_eq visible) text
  have iff (last : Option Char) : last = some z ↔ last.any (· == z) = true := by
    cases last <;> simp
  rw [iff, lasts, ← iff]

/-- A last character that breaks no line is dropped from both texts. -/
theorem dropLast_normalize {z : Char} (visible : isBreak z = false) {text : Text}
    (last : text.getLast? = some z) : text.normalize.dropLast = normalize text.dropLast := by
  obtain ⟨front, rfl⟩ := List.getLast?_eq_some_iff.mp last
  rw [normalize_append_cons visible, normalize, List.dropLast_concat, List.dropLast_concat]

theorem afterLead?_normalize {lead : Text} (visible : ∀ c ∈ lead, isBreak c = false)
    (text : Text) : afterLead? lead text.normalize = (afterLead? lead text).map normalize := by
  induction lead generalizing text with
  | nil => rfl
  | cons a lead ih =>
      obtain ⟨first, others⟩ := List.forall_mem_cons.mp visible
      cases text with
      | nil => rfl
      | cons c rest =>
          by_cases same : a = c
          · subst same
            rw [normalize_cons first, afterLead?, if_pos rfl, afterLead?, if_pos rfl, ih others]
          · have heads := head?_normalize_eq_some_iff first (c :: rest)
            rw [afterLead?, if_neg same, Option.map_none]
            cases shape : normalize (c :: rest) with
            | nil => rfl
            | cons d tail =>
                rw [shape] at heads
                rw [afterLead?, if_neg fun sameToo =>
                  same (Option.some.inj (heads.mp (by rw [sameToo]; rfl))).symm]

/-- A text starts with a lead when something stands after it. -/
theorem isPrefixOf_eq_isSome (lead text : Text) :
    lead.isPrefixOf text = (afterLead? lead text).isSome := by
  rw [Bool.eq_iff_iff, List.isPrefixOf_iff_prefix, Option.isSome_iff_exists]
  constructor
  · rintro ⟨after, rfl⟩
    exact ⟨after, afterLead?_append lead after⟩
  · rintro ⟨after, found⟩
    exact ⟨after, (eq_append_of_afterLead? found).symm⟩

/-- A text starts with a lead without line breaks when its normalization does. -/
theorem isPrefixOf_normalize {lead : Text} (visible : ∀ c ∈ lead, isBreak c = false)
    (text : Text) : lead.isPrefixOf text.normalize = lead.isPrefixOf text := by
  rw [isPrefixOf_eq_isSome, isPrefixOf_eq_isSome, afterLead?_normalize visible, Option.isSome_map]

/-- A visible character of a normalised text stands in the text, between the same parts. -/
theorem exists_of_normalize_eq_append {z : Char} (visible : isBreak z = false)
    {text front back : Text} (split : text.normalize = front ++ z :: back) :
    ∃ before after : Text, text = before ++ z :: after ∧ before.normalize = front ∧
      after.normalize = back := by
  induction text using normalize.induct generalizing front with
  | case1 => simp [normalize] at split
  | case2 rest ih =>
      rw [normalize] at split
      cases front with
      | nil =>
          obtain ⟨rfl, _⟩ := List.cons.inj split
          cases visible
      | cons d front =>
          obtain ⟨rfl, later⟩ := List.cons.inj split
          obtain ⟨before, after, rfl, rfl, same⟩ := ih later
          exact ⟨'\r' :: '\n' :: before, after, rfl, rfl, same⟩
  | case3 c rest lone ih =>
      rw [normalize.eq_3 _ _ lone] at split
      cases front with
      | nil =>
          obtain ⟨first, same⟩ := List.cons.inj split
          have kept : c = z := by
            split at first
            · subst first
              cases visible
            · exact first
          exact ⟨[], rest, by rw [kept]; rfl, rfl, same⟩
      | cons d front =>
          obtain ⟨first, later⟩ := List.cons.inj split
          obtain ⟨before, after, rfl, rfl, same⟩ := ih later
          refine ⟨c :: before, after, rfl, ?_, same⟩
          have alone : ∀ tail, c = '\r' → before = '\n' :: tail → False :=
            fun tail isReturn feeds => lone (tail ++ z :: after) isReturn (by rw [feeds]; rfl)
          rw [normalize.eq_3 _ _ alone, first]

/-- A tail is taken off exactly when it ends the text. -/
theorem beforeTail?_eq_some_iff {tail text before : Text} :
    beforeTail? tail text = some before ↔ text = before ++ tail := by
  refine ⟨eq_append_of_beforeTail?, ?_⟩
  rintro rfl
  rw [beforeTail?, List.reverse_append, afterLead?_append, Option.map_some, List.reverse_reverse]

theorem beforeTail?_normalize {tail : Text} (visible : ∀ c ∈ tail, isBreak c = false)
    (text : Text) :
    beforeTail? tail text.normalize = (beforeTail? tail text).map normalize := by
  apply Option.ext
  intro before
  rw [beforeTail?_eq_some_iff, Option.map_eq_some_iff]
  constructor
  · intro split
    cases tail with
    | nil =>
        rw [List.append_nil] at split
        exact ⟨text, beforeTail?_eq_some_iff.mpr (List.append_nil text).symm, split⟩
    | cons z tail =>
        obtain ⟨first, others⟩ := List.forall_mem_cons.mp visible
        obtain ⟨front, back, rfl, same, rest⟩ := exists_of_normalize_eq_append first split
        have shown : ∀ c ∈ back, isBreak c = false := by
          have alike : (!isBreak '\r') = !isBreak '\n' := rfl
          have all := @all_normalize (!isBreak ·) alike back
          rw [rest, List.all_eq_true.mpr (by simpa using others)] at all
          simpa using all.symm
        rw [normalize_of_visible shown] at rest
        exact ⟨front, beforeTail?_eq_some_iff.mpr (by rw [rest]), same⟩
  · rintro ⟨front, found, rfl⟩
    rw [beforeTail?_eq_some_iff.mp found]
    cases tail with
    | nil => simp
    | cons z tail =>
        obtain ⟨first, others⟩ := List.forall_mem_cons.mp visible
        rw [normalize_append_cons first, normalize_of_visible others]

/-- Of two fronts of a text that end before visible characters, the shorter one is the shorter one
when both are normalised. -/
theorem length_normalize_lt_iff {first second firstRest secondRest : Text} {y z : Char}
    (firstVisible : isBreak y = false) (secondVisible : isBreak z = false)
    (same : first ++ y :: firstRest = second ++ z :: secondRest) :
    first.normalize.length < second.normalize.length ↔ first.length < second.length := by
  rcases List.append_eq_append_iff.mp same with ⟨more, rfl, rest⟩ | ⟨more, rfl, rest⟩
  · cases more with
    | nil => simp
    | cons d more =>
        obtain ⟨rfl, _⟩ := List.cons.inj rest
        rw [normalize_append_cons firstVisible]
        simp
  · cases more with
    | nil => simp
    | cons d more =>
        obtain ⟨rfl, _⟩ := List.cons.inj rest
        rw [normalize_append_cons secondVisible]
        simp only [List.length_append, List.length_cons]
        omega

/-! ### Searches -/

/-- How a search in a normalised text sees the character before a place. -/
def previousUnified (previous : Option Char) : Option Char :=
  previous.map fun c => if c = '\r' then '\n' else c

/-- A class with both line break characters, or neither, judges the previous character the same. -/
theorem any_previousUnified {test : Char → Bool} (alike : test '\r' = test '\n')
    (previous : Option Char) : (previousUnified previous).any test = previous.any test := by
  cases previous with
  | none => rfl
  | some c => by_cases isReturn : c = '\r' <;> simp [previousUnified, isReturn, alike]

/-- A word may start at the same places before and after normalization. -/
theorem startsWord_previousUnified (previous : Option Char) :
    startsWord (previousUnified previous) = startsWord previous := by
  rw [startsWord, startsWord, any_previousUnified (by decide)]

/-- **Searches ignore the kind of line breaks.** A test that nothing passes at a line break, and
that finds the same in a normalised text, is passed first at the same place. -/
theorem search_normalize {β γ : Type} {test : Option Char → Text → Option β}
    {other : Option Char → Text → Option γ} {convert : β → γ}
    (refuses : ∀ previous c rest, isBreak c = true → test previous (c :: rest) = none)
    (agrees : ∀ previous rest,
      other (previousUnified previous) (normalize rest) = (test previous rest).map convert)
    (previous : Option Char) (text : Text) :
    search other (previousUnified previous) text.normalize =
      (search test previous text).map fun (passed, found) => (normalize passed, convert found) := by
  induction text using normalize.induct generalizing previous with
  | case1 =>
      have here := agrees previous []
      rw [normalize] at here ⊢
      rw [search, search, here]
      cases test previous [] <;> rfl
  | case2 rest ih =>
      have here := agrees previous ('\r' :: '\n' :: rest)
      rw [refuses _ _ _ rfl, Option.map_none] at here
      rw [normalize] at here ⊢
      rw [search, here, search, refuses _ _ _ rfl, search, refuses _ _ _ rfl]
      have later := ih (some '\n')
      simp only [Option.map_map]
      rw [show some '\n' = previousUnified (some '\n') from rfl, later, Option.map_map]
      rfl
  | case3 c rest lone ih =>
      have here := agrees previous (c :: rest)
      rw [normalize.eq_3 _ _ lone] at here ⊢
      rw [search, here, search]
      cases found : test previous (c :: rest) with
      | some value => rfl
      | none =>
          have later := ih (some c)
          simp only [Option.map_none]
          rw [show some (if c = '\r' then '\n' else c) = previousUnified (some c) from rfl, later]
          cases searched : search test (some c) rest with
          | none => rfl
          | some result =>
              obtain ⟨passed, value⟩ := result
              obtain ⟨tail, split, _⟩ := eq_append_of_search searched
              have alone : ∀ more, c = '\r' → passed = '\n' :: more → False := by
                intro more isReturn feeds
                exact lone (more ++ tail) isReturn (by rw [split, feeds]; rfl)
              simp [normalize.eq_3 _ _ alone]

/-- The same for tests that do not look back. -/
theorem search_normalize_of_forward {β : Type} {test : Text → Option β} {convert : β → β}
    (refuses : ∀ c rest, isBreak c = true → test (c :: rest) = none)
    (agrees : ∀ rest, test (normalize rest) = (test rest).map convert) (text : Text) :
    search (fun _ rest => test rest) none text.normalize =
      (search (fun _ rest => test rest) none text).map fun (passed, found) =>
        (normalize passed, convert found) := by
  have anywhere : ∀ (previous : Option Char) (rest : Text),
      (fun (_ : Option Char) rest => test rest) (previousUnified previous) (normalize rest) =
        ((fun (_ : Option Char) rest => test rest) previous rest).map convert :=
    fun _ rest => agrees rest
  exact search_normalize (fun _ c rest breaks => refuses c rest breaks) anywhere none text

/-- A search whose test nothing passes at a line break cuts through no `\r\n`. -/
theorem cleanCut_of_search {β : Type} {test : Text → Option β}
    (refuses : ∀ c rest, isBreak c = true → test (c :: rest) = none) {text passed : Text}
    {found : β} (result : search (fun _ rest => test rest) none text = some (passed, found)) :
    ∃ rest, text = passed ++ rest ∧ CleanCut passed rest ∧ test rest = some found := by
  obtain ⟨rest, split, accepted⟩ := eq_append_of_search result
  refine ⟨rest, split, fun _ head => ?_, accepted⟩
  obtain ⟨tail, rfl⟩ := List.head?_eq_some_iff.mp head
  have refused : test ('\n' :: tail) = none := refuses '\n' tail rfl
  rw [refused] at accepted
  cases accepted

/-- The first occurrence of a needle is found by a search. -/
theorem splitFirst?_eq_search (needle text : Text) :
    splitFirst? needle text = search (fun _ rest => afterLead? needle rest) none text := by
  have anywhere (previous : Option Char) :
      splitFirst? needle text = search (fun _ rest => afterLead? needle rest) previous text := by
    induction text generalizing previous with
    | nil => cases needle <;> rfl
    | cons c rest ih =>
        rw [splitFirst?, search, ← ih]
        cases afterLead? needle (c :: rest) <;> rfl
  exact anywhere none

/-- **First occurrences ignore the kind of line breaks.** -/
theorem splitFirst?_normalize {needle : Text} (nonempty : needle ≠ [])
    (visible : ∀ c ∈ needle, isBreak c = false) (text : Text) :
    splitFirst? needle text.normalize =
      (splitFirst? needle text).map fun (before, after) =>
        (normalize before, normalize after) := by
  obtain ⟨a, others, rfl⟩ := List.exists_cons_of_ne_nil nonempty
  rw [splitFirst?_eq_search, splitFirst?_eq_search]
  refine search_normalize_of_forward (fun c rest breaks => ?_) (afterLead?_normalize visible) text
  have first := (List.forall_mem_cons.mp visible).1
  rw [afterLead?, if_neg]
  rintro rfl
  rw [breaks] at first
  cases first

end Text

namespace Recogniser

open Text

/-- **Recognisers that ignore the kind of line breaks.** What is accepted and what is left of a
normalised text is what is accepted and left of the text, normalised, and the cut between them is
through no `\r\n`. -/
structure Normalizes (recogniser : Recogniser) : Prop where
  splits : recogniser.Splits
  commutes : ∀ text, recogniser (normalize text) =
    (recogniser text).map fun (accepted, rest) => (normalize accepted, normalize rest)
  cleanCut : ∀ text accepted rest, recogniser text = some (accepted, rest) →
    CleanCut accepted rest

theorem normalizes_nothing : nothing.Normalizes where
  splits := splits_nothing
  commutes _ := rfl
  cleanCut text accepted rest found := by
    cases found
    exact cleanCut_nil _

theorem normalizes_andThen {first second : Recogniser} (left : first.Normalizes)
    (right : second.Normalizes) : (first.andThen second).Normalizes where
  splits := splits_andThen left.splits right.splits
  commutes text := by
    rw [andThen, andThen, left.commutes]
    cases found : first text with
    | none => rfl
    | some parts =>
        obtain ⟨accepted, middle⟩ := parts
        simp only [Option.map_some, right.commutes, Option.map_map]
        cases foundToo : second middle with
        | none => rfl
        | some partsToo =>
            obtain ⟨acceptedToo, rest⟩ := partsToo
            have clean := left.cleanCut _ _ _ found
            rw [right.splits _ _ _ foundToo] at clean
            simp [normalize_append clean.of_append]
  cleanCut text accepted rest found := by
    obtain ⟨one, middle, two, foundFirst, foundSecond, rfl⟩ := andThen_eq_some_iff.mp found
    have clean := left.cleanCut _ _ _ foundFirst
    rw [right.splits _ _ _ foundSecond] at clean
    cases two with
    | nil => simpa using clean
    | cons c two =>
        intro last
        refine right.cleanCut _ _ _ foundSecond ?_
        rwa [List.getLast?_append, List.getLast?_cons, Option.some_or, ← List.getLast?_cons] at last

theorem normalizes_sequence {parts : List Recogniser} (all : ∀ part ∈ parts, part.Normalizes) :
    (sequence parts).Normalizes := by
  induction parts with
  | nil => exact normalizes_nothing
  | cons part others ih =>
      have rest := ih fun other member => all other (List.mem_cons_of_mem _ member)
      exact normalizes_andThen (all part List.mem_cons_self) rest

theorem normalizes_optional {part : Recogniser} (normalizes : part.Normalizes) :
    (optional part).Normalizes where
  splits := splits_optional normalizes.splits
  commutes text := by
    rw [optional, optional, normalizes.commutes]
    cases part text <;> rfl
  cleanCut text accepted rest found := by
    rcases optional_eq_some_iff.mp found with read | ⟨_, rfl, _⟩
    · exact normalizes.cleanCut _ _ _ read
    · exact cleanCut_nil _

theorem normalizes_orElse {first second : Recogniser} (left : first.Normalizes)
    (right : second.Normalizes) : (first.orElse second).Normalizes where
  splits := splits_orElse left.splits right.splits
  commutes text := by
    rw [orElse, orElse, left.commutes, right.commutes]
    cases first text <;> rfl
  cleanCut text accepted rest found := by
    rcases orElse_eq_some_iff.mp found with read | ⟨_, read⟩
    · exact left.cleanCut _ _ _ read
    · exact right.cleanCut _ _ _ read

theorem normalizes_run {test : Char → Bool} (alike : test '\r' = test '\n') :
    (run test).Normalizes where
  splits := splits_run test
  commutes text := by
    rw [run, run, takeWhile_normalize alike, dropWhile_normalize alike, Option.map_some]
  cleanCut text accepted rest found := by
    obtain ⟨_, passes, stops⟩ := run_eq_some_iff.mp found
    intro last head
    rw [head, Option.any_some, ← alike, passes _ (List.mem_of_getLast? last)] at stops
    cases stops

theorem normalizes_run1 {test : Char → Bool} (alike : test '\r' = test '\n') :
    (run1 test).Normalizes where
  splits := splits_run1 test
  commutes text := by
    have empty : (normalize (text.takeWhile test)).isEmpty = (text.takeWhile test).isEmpty := by
      rw [Bool.eq_iff_iff, List.isEmpty_iff, List.isEmpty_iff, normalize_eq_nil_iff]
    rw [run1, run1, takeWhile_normalize alike, dropWhile_normalize alike, empty]
    split <;> rfl
  cleanCut text accepted rest found :=
    (normalizes_run alike).cleanCut text accepted rest
      (run_eq_some_iff.mpr (run1_eq_some_iff.mp found).2)

theorem normalizes_blanks : blanks.Normalizes :=
  normalizes_run1 (by decide)

/-- No row of classes matches when the first one refuses the first character. -/
theorem each_eq_none {test : Char → Bool} {text : Text} (fails : text.head?.any test = false)
    (tests : List (Char → Bool)) : each (test :: tests) text = none := by
  cases text with
  | nil => rfl
  | cons c rest => rw [each, if_neg (by simpa using fails)]

/-- Classes that break no line match the same characters before and after normalization. -/
theorem each_normalize {tests : List (Char → Bool)}
    (visible : ∀ test ∈ tests, test '\n' = false ∧ test '\r' = false) (text : Text) :
    each tests text.normalize =
      (each tests text).map fun (accepted, rest) => (accepted, normalize rest) := by
  induction tests generalizing text with
  | nil => rfl
  | cons test tests ih =>
      obtain ⟨⟨feeds, returns⟩, others⟩ := List.forall_mem_cons.mp visible
      have heads := any_head?_normalize (returns.trans feeds.symm) text
      cases text with
      | nil => rfl
      | cons c rest =>
          cases passes : test c with
          | false =>
              have fails : (c :: rest).head?.any test = false := passes
              rw [each_eq_none fails, each_eq_none (heads.trans fails), Option.map_none]
          | true =>
              have shown : isBreak c = false := by
                rw [Bool.eq_false_iff]
                intro breaks
                obtain rfl | rfl := eq_of_isBreak breaks
                · rw [feeds] at passes
                  cases passes
                · rw [returns] at passes
                  cases passes
              rw [normalize_cons shown, each, each, if_pos passes, if_pos passes, ih others,
                Option.map_map, Option.map_map]
              rfl

/-- One character for each test, none of which a line break passes. -/
theorem normalizes_each {tests : List (Char → Bool)}
    (visible : ∀ test ∈ tests, test '\n' = false ∧ test '\r' = false) :
    (each tests).Normalizes := by
  have unbroken {text accepted rest : Text} (found : each tests text = some (accepted, rest)) :
      ∀ c ∈ accepted, isBreak c = false := by
    intro c member
    obtain ⟨test, inside, passes⟩ := exists_test_of_each found c member
    rw [Bool.eq_false_iff]
    intro breaks
    obtain rfl | rfl := eq_of_isBreak breaks
    · rw [(visible test inside).1] at passes
      cases passes
    · rw [(visible test inside).2] at passes
      cases passes
  refine ⟨splits_each tests, fun text => ?_, fun text accepted rest found =>
    cleanCut_of_visible (unbroken found) rest⟩
  rw [each_normalize visible]
  cases found : each tests text with
  | none => rfl
  | some parts => simp only [Option.map_some, normalize_of_visible (unbroken found)]

/-- A spelling is a row of classes, one for each letter. -/
theorem spell_eq_each (letters : List Char) : spell letters = each (letters.map isFormOf) := by
  funext text
  induction letters generalizing text with
  | nil => cases text <;> rfl
  | cons letter letters ih =>
      cases text with
      | nil => rfl
      | cons c rest => rw [spell, List.map_cons, each, ih]

/-- One character is a row of one class. -/
theorem char_eq_each (expected : Char) : char expected = each [(· == expected)] := by
  funext text
  cases text with
  | nil => rfl
  | cons c rest => by_cases same : c = expected <;> simp [char, each, same]

theorem normalizes_keyword {word : String} (feeds : avoids '\n' word.toList = true)
    (returns : avoids '\r' word.toList = true) : (keyword word).Normalizes := by
  rw [keyword, spell_eq_each]
  refine normalizes_each fun test member => ?_
  obtain ⟨letter, inside, rfl⟩ := List.mem_map.mp member
  exact ⟨by simpa using List.all_eq_true.mp feeds letter inside,
    by simpa using List.all_eq_true.mp returns letter inside⟩

theorem normalizes_char {expected : Char} (visible : isBreak expected = false) :
    (char expected).Normalizes := by
  rw [char_eq_each]
  refine normalizes_each (List.forall_mem_singleton.mpr ⟨?_, ?_⟩)
  · simpa using Ne.symm (ne_newline_of_visible visible)
  · simpa using Ne.symm (ne_return_of_visible visible)

end Recogniser

end RoutineScripts
