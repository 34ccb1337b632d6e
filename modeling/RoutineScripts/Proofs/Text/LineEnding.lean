import RoutineScripts.Proofs.Text.Search
import RoutineScripts.Text.LineEnding

/-!
# Normalised texts and their conventions

The line breaks of a text are read off it one after the other (`Text.breaks`). A normalised text
holds no `\r`. Writing such a text in a convention and normalising it again gives it back, and where
it has line breaks their convention is detected. Conversely, a text is its normalised form written
in the convention detected in it exactly if its line breaks are all of one kind
(`LineEnding.apply_normalize`, `LineEnding.conversion_exact`).
-/

namespace RoutineScripts

namespace Text

/-- The kinds of the line breaks of a text, in order. -/
def breaks : Text → List LineEnding
  | [] => []
  | '\r' :: '\n' :: rest => .crlf :: breaks rest
  | c :: rest =>
      if c = '\r' then .cr :: breaks rest
      else if c = '\n' then .lf :: breaks rest
      else breaks rest

/-- The line breaks of a text are all of one kind. -/
def Uniform (text : Text) : Prop :=
  ∃ ending, ∀ kind ∈ text.breaks, kind = ending

/-- A needle occurs in a text when it is a factor of it. -/
theorem occursIn_iff {needle text : Text} :
    occursIn needle text = true ↔ needle <:+: text := by
  rw [occursIn, Option.isSome_iff_exists]
  constructor
  · rintro ⟨⟨before, after⟩, found⟩
    exact ⟨before, after, (eq_append_of_splitFirst? found).symm⟩
  · rintro ⟨before, after, rfl⟩
    induction before with
    | nil =>
        rw [List.nil_append]
        cases whole : needle ++ after with
        | nil => exact ⟨([], []), by simp [splitFirst?, (List.append_eq_nil_iff.mp whole).1]⟩
        | cons c rest => exact ⟨([], after), by rw [splitFirst?, ← whole, afterLead?_append]⟩
    | cons c before ih =>
        obtain ⟨⟨front, back⟩, found⟩ := ih
        rw [List.cons_append, List.cons_append, splitFirst?, found]
        cases afterLead? needle (c :: (before ++ needle ++ after)) with
        | none => exact ⟨(c :: front, back), rfl⟩
        | some rest => exact ⟨([], rest), rfl⟩

/-- A text has a CRLF break when a return stands right before a line feed. -/
theorem crlf_mem_breaks_iff {text : Text} :
    LineEnding.crlf ∈ text.breaks ↔ ['\r', '\n'] <:+: text := by
  fun_induction breaks text with
  | case1 => simp
  | case2 rest ih =>
      simp only [List.mem_cons, true_or, true_iff]
      exact ⟨[], rest, rfl⟩
  | case3 rest lone ih =>
      have apart : ¬ ['\n'] <+: rest := by
        rintro ⟨tail, rfl⟩
        exact lone tail rfl rfl
      rw [List.infix_cons_iff, List.cons_prefix_cons]
      simp [ih, apart]
  | case4 rest _ _ ih =>
      rw [List.infix_cons_iff, List.cons_prefix_cons]
      simp [ih]
  | case5 c rest _ notReturn _ ih =>
      rw [List.infix_cons_iff, List.cons_prefix_cons, ih]
      simp [Ne.symm notReturn]

/-- A line feed stands in a text as a CRLF break or as a bare one. -/
theorem newline_mem_iff {text : Text} :
    '\n' ∈ text ↔ LineEnding.crlf ∈ text.breaks ∨ LineEnding.lf ∈ text.breaks := by
  fun_induction breaks text with
  | case1 => simp
  | case2 rest ih => simp
  | case3 rest _ ih => simp [ih]
  | case4 rest _ _ ih => simp
  | case5 c rest _ _ notFeed ih => simp [ih, Ne.symm notFeed]

/-- A return stands in a text as a CRLF break or as a bare one. -/
theorem return_mem_iff {text : Text} :
    '\r' ∈ text ↔ LineEnding.crlf ∈ text.breaks ∨ LineEnding.cr ∈ text.breaks := by
  fun_induction breaks text with
  | case1 => simp
  | case2 rest ih => simp
  | case3 rest _ ih => simp
  | case4 rest _ _ ih => simp [ih]
  | case5 c rest _ notReturn _ ih => simp [ih, Ne.symm notReturn]

/-- In a text without line feeds no character is one. -/
theorem bne_newline_of_not_mem {text : Text} (unbroken : '\n' ∉ text) :
    ∀ c ∈ text, (c != '\n') = true := by
  intro c member
  rw [bne_iff_ne]
  rintro rfl
  exact unbroken member

/-- Normalised texts hold no `\r`. -/
theorem return_not_mem_normalize (text : Text) : '\r' ∉ text.normalize := by
  fun_induction normalize text with
  | case1 => simp
  | case2 rest ih => simp [ih]
  | case3 c rest _ ih =>
      by_cases isReturn : c = '\r'
      · simp [isReturn, ih]
      · simp [isReturn, Ne.symm isReturn, ih]

end Text

namespace LineEnding

open Text

/-- The convention that is detected, in terms of the breaks. -/
theorem detect_eq (text : Text) :
    detect text =
      if crlf ∈ text.breaks then crlf
      else if lf ∈ text.breaks then lf
      else if cr ∈ text.breaks then cr
      else lf := by
  rw [detect]
  by_cases both : crlf ∈ text.breaks
  · simp only [occursIn_iff, ← crlf_mem_breaks_iff, both, if_true]
  · simp only [occursIn_iff, ← crlf_mem_breaks_iff, both, if_false, newline_mem_iff,
      return_mem_iff, false_or]

/-- In a text whose line breaks are all of one kind, they are of the kind that is detected. -/
theorem eq_detect_of_mem_breaks {text : Text} (uniform : Uniform text) {kind : LineEnding}
    (member : kind ∈ text.breaks) : kind = detect text := by
  obtain ⟨ending, all⟩ := uniform
  have absent (other : LineEnding) (differs : other ≠ kind) : other ∉ text.breaks :=
    fun inside => differs ((all other inside).trans (all kind member).symm)
  rw [detect_eq]
  cases kind with
  | crlf => rw [if_pos member]
  | lf => rw [if_neg (absent _ (by decide)), if_pos member]
  | cr => rw [if_neg (absent _ (by decide)), if_neg (absent _ (by decide)), if_pos member]

/-- Line endings are applied to the two parts of a text on their own. -/
@[simp]
theorem apply_append (ending : LineEnding) (left right : Text) :
    ending.apply (left ++ right) = ending.apply left ++ ending.apply right :=
  List.flatMap_append

theorem apply_cons (ending : LineEnding) (c : Char) (rest : Text) :
    ending.apply (c :: rest) =
      (if c = '\n' then ending.terminator else [c]) ++ ending.apply rest :=
  List.flatMap_cons

/-- A text without line feeds is written as it is. -/
theorem apply_of_not_mem (ending : LineEnding) {text : Text} (unbroken : '\n' ∉ text) :
    ending.apply text = text := by
  induction text with
  | nil => rfl
  | cons c rest ih =>
      simp only [List.mem_cons, not_or] at unbroken
      rw [apply_cons, if_neg (Ne.symm unbroken.1), ih unbroken.2, List.singleton_append]

/-- A text whose line breaks are all of one kind is its normalised form in that convention. -/
theorem apply_normalize_of_breaks {ending : LineEnding} {text : Text}
    (all : ∀ kind ∈ text.breaks, kind = ending) : ending.apply text.normalize = text := by
  fun_induction Text.normalize text with
  | case1 => rfl
  | case2 rest ih =>
      simp only [breaks, List.forall_mem_cons] at all
      obtain ⟨rfl, later⟩ := all
      rw [apply_cons, if_pos rfl, ih later]
      rfl
  | case3 c rest lone ih =>
      rw [breaks.eq_3 _ _ lone] at all
      by_cases isReturn : c = '\r'
      · rw [if_pos isReturn, List.forall_mem_cons] at all
        obtain ⟨rfl, later⟩ := all
        rw [if_pos isReturn, apply_cons, if_pos rfl, ih later, isReturn]
        rfl
      · rw [if_neg isReturn] at all ⊢
        by_cases isFeed : c = '\n'
        · rw [if_pos isFeed, List.forall_mem_cons] at all
          obtain ⟨rfl, later⟩ := all
          rw [apply_cons, if_pos isFeed, ih later, isFeed]
          rfl
        · rw [if_neg isFeed] at all
          rw [apply_cons, if_neg isFeed, ih all, List.singleton_append]

/-- **A text in one convention is restored.** A text whose line breaks are all of one kind is its
normalised form, written in the convention detected in it. -/
theorem apply_normalize {text : Text} (uniform : Uniform text) :
    (detect text).apply text.normalize = text :=
  apply_normalize_of_breaks fun _ member => eq_detect_of_mem_breaks uniform member

/-- A text written with bare returns does not start with a line feed. -/
theorem head?_apply_cr (text : Text) : (cr.apply text).head? ≠ some '\n' := by
  cases text with
  | nil => simp [apply]
  | cons c rest =>
      rw [apply_cons]
      by_cases isFeed : c = '\n'
      · simp [isFeed, terminator]
      · simp [isFeed]

/-- The breaks of a text written in a convention, and its normalised form. -/
theorem breaks_apply (ending : LineEnding) {text : Text} (bare : '\r' ∉ text) :
    breaks (ending.apply text) = List.replicate (text.count '\n') ending ∧
      Text.normalize (ending.apply text) = text := by
  induction text with
  | nil => exact ⟨rfl, rfl⟩
  | cons c rest ih =>
      simp only [List.mem_cons, not_or] at bare
      obtain ⟨kinds, restored⟩ := ih bare.2
      rw [apply_cons]
      by_cases isFeed : c = '\n'
      · subst isFeed
        rw [if_pos rfl, List.count_cons_self, List.replicate_succ, ← kinds]
        cases ending with
        | crlf => exact ⟨rfl, congrArg ('\n' :: ·) restored⟩
        | lf => exact ⟨rfl, congrArg ('\n' :: ·) restored⟩
        | cr =>
            have lone : ∀ tail, '\r' = '\r' → cr.apply rest = '\n' :: tail → False :=
              fun tail _ feeds => head?_apply_cr rest (by rw [feeds]; rfl)
            simp only [terminator, List.singleton_append]
            rw [breaks.eq_3 _ _ lone, Text.normalize.eq_3 _ _ lone, if_pos rfl, if_pos rfl,
              restored]
            exact ⟨rfl, rfl⟩
      · have lone : ∀ tail, c = '\r' → ending.apply rest = '\n' :: tail → False :=
          fun _ isReturn _ => bare.1 isReturn.symm
        rw [if_neg isFeed, List.count_cons_of_ne isFeed, List.singleton_append,
          breaks.eq_3 _ _ lone, Text.normalize.eq_3 _ _ lone, if_neg (Ne.symm bare.1),
          if_neg isFeed, if_neg (Ne.symm bare.1), restored]
        exact ⟨kinds, rfl⟩

/-- Normalization undoes the writing of line endings. -/
theorem normalize_apply (ending : LineEnding) {text : Text} (bare : '\r' ∉ text) :
    Text.normalize (ending.apply text) = text :=
  (breaks_apply ending bare).2

/-- The convention in which a normalised text is written is detected if it has line breaks. -/
theorem detect_apply (ending : LineEnding) {text : Text} (bare : '\r' ∉ text)
    (broken : '\n' ∈ text) : detect (ending.apply text) = ending := by
  have member : ending ∈ breaks (ending.apply text) := by
    rw [(breaks_apply ending bare).1, List.mem_replicate]
    exact ⟨Nat.pos_iff_ne_zero.mp (List.count_pos_iff.mpr broken), rfl⟩
  refine (eq_detect_of_mem_breaks ⟨ending, fun kind inside => ?_⟩ member).symm
  rw [(breaks_apply ending bare).1] at inside
  exact List.eq_of_mem_replicate inside

/-- **The convention of a text is kept.** A text that has line breaks only if a normalised one has
is written in the convention that is detected in the other. -/
theorem apply_detect_apply (ending : LineEnding) {text other : Text} (bare : '\r' ∉ text)
    (follows : '\n' ∈ other → '\n' ∈ text) :
    (detect (ending.apply text)).apply other = ending.apply other := by
  by_cases broken : '\n' ∈ other
  · rw [detect_apply ending bare (follows broken)]
  · rw [apply_of_not_mem _ broken, apply_of_not_mem _ broken]

/-- Line feeds are written as they are. -/
theorem apply_lf (text : Text) : lf.apply text = text := by
  induction text with
  | nil => rfl
  | cons c rest ih =>
      rw [apply_cons, ih]
      by_cases isFeed : c = '\n'
      · rw [if_pos isFeed, isFeed]
        rfl
      · rw [if_neg isFeed, List.singleton_append]

/-- What is written in a convention has line breaks of one kind. -/
theorem uniform_apply (ending : LineEnding) {text : Text} (bare : '\r' ∉ text) :
    Uniform (ending.apply text) := by
  refine ⟨ending, fun kind member => ?_⟩
  rw [(breaks_apply ending bare).1] at member
  exact List.eq_of_mem_replicate member

/-- **What converting line breaks keeps.** A text comes back from its normalised form, in the
convention detected in it, exactly if its line breaks are all of one kind. A normalised text comes
back from every convention, and the convention is detected if the text has line breaks. Parts of a
text are converted one by one. -/
theorem conversion_exact :
    (∀ text : Text, (detect text).apply text.normalize = text ↔ Uniform text) ∧
    (∀ (ending : LineEnding) (text : Text), '\r' ∉ text →
      Text.normalize (ending.apply text) = text ∧
        ('\n' ∈ text → detect (ending.apply text) = ending)) ∧
    ∀ (ending : LineEnding) (left right : Text),
      ending.apply (left ++ right) = ending.apply left ++ ending.apply right := by
  refine ⟨fun text => ⟨fun restored => ?_, apply_normalize⟩, fun ending text bare =>
    ⟨normalize_apply ending bare, detect_apply ending bare⟩, apply_append⟩
  have uniform := uniform_apply (detect text) (return_not_mem_normalize text)
  rwa [restored] at uniform

/-- A lone `\r` before a `\r\n` is lost, and so is a `\r` after a `\n`. Blank lines come back. -/
theorem conversion_exact_mixed :
    let mixed : Text := "a\r\r\nb".toList
    let turned : Text := "a\n\rb".toList
    let plain : Text := "\nx\n\n".toList
    (detect mixed).apply mixed.normalize ≠ mixed ∧
      (detect turned).apply turned.normalize ≠ turned ∧ '\r' ∉ plain ∧
      Text.normalize (cr.apply plain) = plain ∧ detect (cr.apply plain) = cr := by
  intro mixed turned plain
  obtain ⟨restored, converted, _⟩ := conversion_exact
  have several {text : Text} {first second : LineEnding} (one : first ∈ text.breaks)
      (other : second ∈ text.breaks) (differ : first ≠ second) : ¬ Uniform text := by
    rintro ⟨ending, all⟩
    exact differ ((all first one).trans (all second other).symm)
  have bare : '\r' ∉ plain := by decide
  obtain ⟨back, detected⟩ := converted cr plain bare
  refine ⟨fun same => ?_, fun same => ?_, bare, back, detected (by decide)⟩
  · exact several (by decide : cr ∈ mixed.breaks) (by decide : crlf ∈ mixed.breaks) (by decide)
      ((restored mixed).mp same)
  · exact several (by decide : lf ∈ turned.breaks) (by decide : cr ∈ turned.breaks) (by decide)
      ((restored turned).mp same)

end LineEnding

end RoutineScripts
