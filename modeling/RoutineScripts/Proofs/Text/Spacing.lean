import RoutineScripts.Proofs.Text.Normalization
import RoutineScripts.Proofs.Text.Search
import RoutineScripts.Proofs.Text.Words

/-!
# Texts up to white space

Two texts that differ in how their words are spaced have the same squeezed form, in which each run
of white space is one space (`Text.squeeze`). Runs of characters, words and searches whose test is
passed at no white space go together with squeezing (`Recogniser.run1_squeeze`,
`Recogniser.keyword_squeeze`, `Text.search_squeeze`), and a squeezed text collapses to the same text
(`Text.collapse_squeeze`). So a reader built from these reads the same from texts with one squeezed
form.
-/

namespace RoutineScripts

namespace Text

/-- Writes each run of white space as one space. -/
def squeeze : Text → Text
  | [] => []
  | c :: rest =>
      if isBlank c then if rest.head?.any isBlank then squeeze rest else ' ' :: squeeze rest
      else c :: squeeze rest

theorem squeeze_cons {c : Char} (visible : isBlank c = false) (rest : Text) :
    squeeze (c :: rest) = c :: squeeze rest := by
  simp [squeeze, visible]

/-- White space is squeezed to one space. -/
theorem squeeze_blank {c : Char} (blank : isBlank c = true) (rest : Text) :
    squeeze (c :: rest) = ' ' :: squeeze (rest.dropWhile isBlank) := by
  induction rest generalizing c with
  | nil => simp [squeeze, blank]
  | cons d rest ih =>
      rw [squeeze, if_pos blank]
      cases next : isBlank d with
      | true => simp [next, ih next]
      | false => simp [next]

/-- A gap is squeezed to one space. -/
theorem squeeze_gap {gap : Text} (nonempty : gap ≠ []) (blank : ∀ c ∈ gap, isBlank c = true)
    (rest : Text) : squeeze (gap ++ rest) = ' ' :: squeeze (rest.dropWhile isBlank) := by
  obtain ⟨c, others, rfl⟩ := List.exists_cons_of_ne_nil nonempty
  obtain ⟨first, later⟩ := List.forall_mem_cons.mp blank
  rw [List.cons_append, squeeze_blank first, List.dropWhile_append_of_pos later]

/-- A text without white space is kept. -/
theorem squeeze_of_visible {text : Text} (visible : ∀ c ∈ text, isBlank c = false) :
    squeeze text = text := by
  induction text with
  | nil => rfl
  | cons c rest ih =>
      obtain ⟨first, others⟩ := List.forall_mem_cons.mp visible
      rw [squeeze_cons first, ih others]

/-- Squeezing leaves white space exactly where there is some. -/
theorem any_isBlank_squeeze (text : Text) : (squeeze text).any isBlank = text.any isBlank := by
  have space : isBlank ' ' = true := by decide
  induction text with
  | nil => rfl
  | cons c rest ih =>
      cases blank : isBlank c with
      | false => rw [squeeze_cons blank, List.any_cons, List.any_cons, ih]
      | true => rw [squeeze_blank blank, List.any_cons, List.any_cons, space, blank]; simp

theorem squeeze_eq_nil_iff {text : Text} : squeeze text = [] ↔ text = [] := by
  cases text with
  | nil => simp [squeeze]
  | cons c rest => cases blank : isBlank c <;> simp [squeeze_cons, squeeze_blank, blank]

/-- Squeezing makes no text longer. -/
theorem length_squeeze_le (text : Text) : (squeeze text).length ≤ text.length := by
  induction text with
  | nil => exact Nat.le_refl 0
  | cons c rest ih =>
      rw [squeeze]
      split
      · split
        · exact Nat.le_succ_of_le ih
        · exact Nat.succ_le_succ ih
      · exact Nat.succ_le_succ ih

/-- A text that is squeezed to one space is white space. -/
theorem blank_of_squeeze {text : Text} (squeezed : squeeze text = [' ']) :
    ∀ c ∈ text, isBlank c = true := by
  cases text with
  | nil => cases squeezed
  | cons c rest =>
      cases blank : isBlank c with
      | false =>
          rw [squeeze_cons blank] at squeezed
          obtain ⟨rfl, _⟩ := List.cons.inj squeezed
          cases blank
      | true =>
          rw [squeeze_blank blank] at squeezed
          have whole : rest.takeWhile isBlank = rest := by
            have nothing := squeeze_eq_nil_iff.mp (List.cons.inj squeezed).2
            rw [← List.append_nil (rest.takeWhile isBlank), ← nothing]
            exact List.takeWhile_append_dropWhile
          exact List.forall_mem_cons.mpr
            ⟨blank, List.all_eq_true.mp (whole ▸ List.all_takeWhile)⟩

/-- A text that starts with a visible character keeps its front. -/
theorem dropWhile_of_starts {text : Text} (starts : text.head?.any isBlank = false) :
    text.dropWhile isBlank = text := by
  cases text with
  | nil => rfl
  | cons c rest => exact List.dropWhile_cons_of_neg (by simpa using starts)

/-- Induction over a text that takes each run of white space as a whole. -/
@[elab_as_elim]
theorem gapInduction {motive : Text → Prop} (nil : motive [])
    (cons : ∀ c rest, isBlank c = false → motive rest → motive (c :: rest))
    (gap : ∀ gap rest, gap ≠ [] → (∀ c ∈ gap, isBlank c = true) →
      rest.head?.any isBlank = false → motive rest → motive (gap ++ rest))
    (text : Text) : motive text := by
  induction size : text.length using Nat.strongRecOn generalizing text with
  | ind n ih =>
      subst size
      cases text with
      | nil => exact nil
      | cons c rest =>
          cases first : isBlank c with
          | false => exact cons c rest first (ih rest.length (by simp) rest rfl)
          | true =>
              obtain ⟨split, blank, starts⟩ := Recogniser.run_eq_some_iff.mp
                (show Recogniser.run isBlank rest =
                  some (rest.takeWhile isBlank, rest.dropWhile isBlank) from rfl)
              have shorter : (rest.dropWhile isBlank).length < (c :: rest).length :=
                Nat.lt_succ_of_le (List.dropWhile_sublist isBlank).length_le
              have later := gap (c :: rest.takeWhile isBlank) (rest.dropWhile isBlank)
                (List.cons_ne_nil _ _) (List.forall_mem_cons.mpr ⟨first, blank⟩) starts
                (ih _ shorter _ rfl)
              rwa [List.cons_append, ← split] at later

section Alike

variable {test : Char → Bool}

/-- A test that treats white space alike sees the same at the front of a squeezed text. -/
theorem any_head?_squeeze (alike : ∀ c, isBlank c = true → test c = test ' ') (text : Text) :
    (squeeze text).head?.any test = text.head?.any test := by
  cases text with
  | nil => rfl
  | cons c rest =>
      cases blank : isBlank c with
      | false => rw [squeeze_cons blank, List.head?_cons, List.head?_cons]
      | true =>
          rw [squeeze_blank blank, List.head?_cons, List.head?_cons, Option.any_some,
            Option.any_some, alike c blank]

/-- **Runs ignore the spacing.** -/
theorem span_squeeze (alike : ∀ c, isBlank c = true → test c = test ' ') (text : Text) :
    (squeeze text).takeWhile test = squeeze (text.takeWhile test) ∧
      (squeeze text).dropWhile test = squeeze (text.dropWhile test) := by
  induction text using gapInduction with
  | nil => exact ⟨rfl, rfl⟩
  | cons c rest visible ih =>
      rw [squeeze_cons visible]
      cases passes : test c with
      | true => simpa [passes, squeeze_cons visible] using ih
      | false => simp [passes, squeeze_cons visible, squeeze]
  | gap gap rest nonempty blank starts ih =>
      have squeezed : squeeze (gap ++ rest) = ' ' :: squeeze rest := by
        rw [squeeze_gap nonempty blank, dropWhile_of_starts starts]
      rw [squeezed]
      cases passes : test ' ' with
      | true =>
          have all : ∀ c ∈ gap, test c = true := fun c member => by
            rw [alike c (blank c member), passes]
          have taken : squeeze (gap ++ rest.takeWhile test) =
              ' ' :: squeeze (rest.takeWhile test) := by
            rw [squeeze_gap nonempty blank, dropWhile_of_starts]
            cases rest with
            | nil => rfl
            | cons d rest => cases here : test d <;> simp_all
          rw [List.takeWhile_append_of_pos all, List.dropWhile_append_of_pos all, taken]
          simpa [passes] using ih
      | false =>
          obtain ⟨c, others, rfl⟩ := List.exists_cons_of_ne_nil nonempty
          have fails : test c = false := by rw [alike c (blank c List.mem_cons_self), passes]
          rw [List.cons_append] at squeezed
          simp [passes, fails, squeezed, squeeze]

end Alike

/-- Dropping the white space in front commutes with squeezing. -/
theorem dropWhile_squeeze (text : Text) :
    (squeeze text).dropWhile isBlank = squeeze (text.dropWhile isBlank) := by
  have space : isBlank ' ' = true := by decide
  exact (@span_squeeze isBlank (fun c blank => blank.trans space.symm) text).2

/-- Equal squeezes stay equal behind a common front. -/
theorem squeeze_append_congr (front : Text) {first second : Text}
    (same : squeeze first = squeeze second) :
    squeeze (front ++ first) = squeeze (front ++ second) := by
  induction front with
  | nil => exact same
  | cons c front ih =>
      rw [List.cons_append, List.cons_append]
      cases blank : isBlank c with
      | false => rw [squeeze_cons blank, squeeze_cons blank, ih]
      | true =>
          rw [squeeze_blank blank, squeeze_blank blank, ← dropWhile_squeeze, ih, dropWhile_squeeze]

/-- Two texts stay alike up to white space with white space in front of each. -/
theorem squeeze_gap_congr {gap other first second : Text} (nonempty : gap ≠ [])
    (blank : ∀ c ∈ gap, isBlank c = true) (nonemptyToo : other ≠ [])
    (blankToo : ∀ c ∈ other, isBlank c = true) (same : squeeze first = squeeze second) :
    squeeze (gap ++ first) = squeeze (other ++ second) := by
  rw [squeeze_gap nonempty blank, squeeze_gap nonemptyToo blankToo, ← dropWhile_squeeze, same,
    dropWhile_squeeze]

/-! ### Collapsing -/

/-- A gap leaves one space pending. -/
theorem settle_gap {gap : Text} (blank : ∀ c ∈ gap, isBlank c = true) (pending : Bool)
    (rest : Text) (nonempty : gap ≠ []) : settle pending (gap ++ rest) = settle true rest := by
  induction gap generalizing pending with
  | nil => exact absurd rfl nonempty
  | cons c gap ih =>
      obtain ⟨first, later⟩ := List.forall_mem_cons.mp blank
      rw [List.cons_append, settle, if_pos first]
      cases gap with
      | nil => rfl
      | cons d gap => exact ih later true (List.cons_ne_nil d gap)

/-- Settling a text reads no more than its squeeze. -/
theorem settle_squeeze (pending : Bool) (text : Text) :
    settle pending (squeeze text) = settle pending text := by
  induction text using gapInduction generalizing pending with
  | nil => rfl
  | cons c rest visible ih => rw [squeeze_cons visible, settle, settle, ih, ih]
  | gap gap rest nonempty blank starts ih =>
      have space : isBlank ' ' = true := by decide
      rw [squeeze_gap nonempty blank, dropWhile_of_starts starts, settle, if_pos space, ih,
        settle_gap blank pending rest nonempty]

/-- **Collapsing ignores the spacing.** -/
theorem collapse_squeeze (text : Text) : (squeeze text).collapse = text.collapse := by
  rw [collapse, collapse, dropWhile_squeeze, settle_squeeze]

/-- A gap at the end leaves nothing. -/
theorem settle_append_gap {gap : Text} (blank : ∀ c ∈ gap, isBlank c = true) (pending : Bool)
    (front : Text) : settle pending (front ++ gap) = settle pending front := by
  induction front generalizing pending with
  | nil =>
      by_cases empty : gap = []
      · rw [empty, List.append_nil]
      · simpa [settle] using settle_gap blank pending [] empty
  | cons c front ih => rw [List.cons_append, settle, settle, ih, ih]

/-- Collapsing ignores the white space at both ends. -/
theorem collapse_trim (text : Text) : text.trim.collapse = text.collapse := by
  have whole := dropTail_append_takeTail isBlank (text.dropWhile isBlank)
  have blank : ∀ c ∈ takeTail isBlank (text.dropWhile isBlank), isBlank c = true :=
    fun c => mem_takeTail
  have starts : (dropTail isBlank (text.dropWhile isBlank)).head?.any isBlank = false := by
    have outer : (text.dropWhile isBlank).head?.any isBlank = false :=
      (Recogniser.run_eq_some_iff.mp (show Recogniser.run isBlank text =
        some (text.takeWhile isBlank, text.dropWhile isBlank) from rfl)).2.2
    rw [← whole] at outer
    cases kept : dropTail isBlank (text.dropWhile isBlank) with
    | nil => rfl
    | cons c rest => simpa [kept] using outer
  have kept := settle_append_gap blank false (dropTail isBlank (text.dropWhile isBlank))
  rw [collapse, trim, dropWhile_of_starts starts, collapse, ← kept, whole]

/-! ### Searches -/

/-- **Searches ignore the spacing.** A test that nothing passes at white space, and that finds the
same in a squeezed text, is passed first at the same place. Of the character before a place it
may only ask whether a word can start after it. -/
theorem search_squeeze {β γ : Type} {test : Option Char → Text → Option β}
    {other : Option Char → Text → Option γ} {convert : β → γ}
    (refuses : ∀ previous c rest, isBlank c = true → test previous (c :: rest) = none)
    (agrees : ∀ first second rest, startsWord second = startsWord first →
      other second (squeeze rest) = (test first rest).map convert)
    {first second : Option Char} (alike : startsWord second = startsWord first) (text : Text) :
    search other second (squeeze text) =
      (search test first text).map fun (passed, found) => (squeeze passed, convert found) := by
  induction text using gapInduction generalizing first second with
  | nil =>
      have here := agrees first second [] alike
      rw [squeeze] at here ⊢
      rw [search, search, here]
      cases test first [] <;> rfl
  | cons c rest visible ih =>
      have here := agrees first second (c :: rest) alike
      rw [squeeze_cons visible] at here ⊢
      rw [search, search, here]
      cases test first (c :: rest) with
      | some found => rfl
      | none =>
          simp only [Option.map_none]
          rw [ih rfl, Option.map_map, Option.map_map]
          congr 1
          funext found
          simp [squeeze_cons visible]
  | gap gap rest nonempty blank starts ih =>
      have misses : Misses test first gap rest := by
        intro before c after split
        exact refuses _ c _ (blank c (by simp [split]))
      have here : other second (' ' :: squeeze rest) = none := by
        have refused : test first (gap ++ rest) = none := by
          obtain ⟨c, others, rfl⟩ := List.exists_cons_of_ne_nil nonempty
          exact refuses first c _ (blank c List.mem_cons_self)
        have agreed := agrees first second (gap ++ rest) alike
        rwa [squeeze_gap nonempty blank, dropWhile_of_starts starts, refused] at agreed
      have last : startsWord (some ' ') = startsWord (gap.getLast?.or first) := by
        have inside := blank _ (List.getLast_mem nonempty)
        have space : isBlank ' ' = true := by decide
        rw [List.getLast?_eq_some_getLast nonempty, Option.some_or, startsWord, startsWord,
          Option.any_some, Option.any_some, isWordChar_of_isBlank inside,
          isWordChar_of_isBlank space]
      rw [squeeze_gap nonempty blank, dropWhile_of_starts starts, search, here, ih last,
        search_append misses, Option.map_map]
      cases searched : search test (gap.getLast?.or first) rest with
      | none => rfl
      | some result =>
          obtain ⟨passed, value⟩ := result
          obtain ⟨tail, rfl, _⟩ := eq_append_of_search searched
          have visible : passed.head?.any isBlank = false := by
            cases passed with
            | nil => rfl
            | cons c passed => simpa using starts
          simp [squeeze_gap nonempty blank, dropWhile_of_starts visible]

end Text

namespace Recogniser

open Text

/-- A run of a class that treats white space alike commutes with squeezing. -/
theorem run1_squeeze {test : Char → Bool} (alike : ∀ c, isBlank c = true → test c = test ' ')
    (text : Text) :
    run1 test (squeeze text) =
      (run1 test text).map fun (accepted, rest) => (squeeze accepted, squeeze rest) := by
  obtain ⟨taken, dropped⟩ := span_squeeze alike text
  have empty : (squeeze (text.takeWhile test)).isEmpty = (text.takeWhile test).isEmpty := by
    rw [Bool.eq_iff_iff, List.isEmpty_iff, List.isEmpty_iff, squeeze_eq_nil_iff]
  rw [run1, run1, taken, dropped, empty]
  split <;> rfl

/-- White space commutes with squeezing. -/
theorem blanks_squeeze (text : Text) :
    blanks (squeeze text) =
      (blanks text).map fun (accepted, rest) => (squeeze accepted, squeeze rest) := by
  have space : isBlank ' ' = true := by decide
  exact run1_squeeze (fun c blank => blank.trans space.symm) text

/-- Classes without white space match the same characters before and after squeezing. -/
theorem each_squeeze {tests : List (Char → Bool)}
    (visible : ∀ test ∈ tests, ∀ c, isBlank c = true → test c = false) (text : Text) :
    each tests (squeeze text) =
      (each tests text).map fun (accepted, rest) => (accepted, squeeze rest) := by
  induction tests generalizing text with
  | nil => rfl
  | cons test tests ih =>
      obtain ⟨here, others⟩ := List.forall_mem_cons.mp visible
      have space : test ' ' = false := here ' ' (by decide)
      have heads := any_head?_squeeze (fun c blank => (here c blank).trans space.symm) text
      cases text with
      | nil => rfl
      | cons c rest =>
          cases passes : test c with
          | false =>
              have fails : (c :: rest).head?.any test = false := passes
              rw [each_eq_none fails, each_eq_none (heads.trans fails), Option.map_none]
          | true =>
              have shown : isBlank c = false := by
                rw [Bool.eq_false_iff]
                intro blank
                rw [here c blank] at passes
                cases passes
              rw [squeeze_cons shown, each, each, if_pos passes, if_pos passes, ih others,
                Option.map_map, Option.map_map]
              rfl

/-- A visible character is matched the same before and after squeezing. -/
theorem char_squeeze {expected : Char} (visible : isBlank expected = false) (text : Text) :
    char expected (squeeze text) =
      (char expected text).map fun (accepted, rest) => (accepted, squeeze rest) := by
  rw [char_eq_each]
  refine each_squeeze (List.forall_mem_singleton.mpr fun c blank => ?_) text
  rw [beq_eq_false_iff_ne]
  rintro rfl
  rw [visible] at blank
  cases blank

/-- White space has no lower case of its own. -/
theorem toLower_of_isBlank {c : Char} (blank : isBlank c = true) : c.toLower = c := by
  have outside : ¬ (c.val ≥ 'A'.val ∧ c.val ≤ 'Z'.val) := by
    intro ⟨lower, upper⟩
    have below : 65 ≤ c.toNat := lower
    have above : c.toNat ≤ 90 := upper
    simp only [isBlank, Bool.or_eq_true, Bool.and_eq_true, decide_eq_true_eq, beq_iff_eq] at blank
    omega
  exact dif_neg outside

/-- A word that holds no white space. -/
structure IsSolid (word : String) : Prop where
  nonempty : word.toList ≠ [] := by decide
  visible : word.toList.all (!isBlank ·) = true := by decide

/-- No letter of a solid word is white space. -/
theorem IsSolid.isBlank_eq_false {word : String} (solid : IsSolid word) {letter : Char}
    (member : letter ∈ word.toList) : isBlank letter = false := by
  simpa using List.all_eq_true.mp solid.visible letter member

/-- **Words ignore the spacing.** -/
theorem keyword_squeeze {word : String} (solid : IsSolid word) (text : Text) :
    keyword word (squeeze text) =
      (keyword word text).map fun (accepted, rest) => (accepted, squeeze rest) := by
  rw [keyword, spell_eq_each]
  refine each_squeeze (fun test member c blank => ?_) text
  obtain ⟨letter, inside, rfl⟩ := List.mem_map.mp member
  exact isFormOf_of_isBlank blank (solid.isBlank_eq_false inside)

/-- No word starts with white space. -/
theorem keyword_blank {word : String} (solid : IsSolid word) {c : Char} (blank : isBlank c = true)
    (rest : Text) : keyword word (c :: rest) = none := by
  obtain ⟨letter, letters, shape⟩ := List.exists_cons_of_ne_nil solid.nonempty
  have shown : isBlank letter = false := solid.isBlank_eq_false (by simp [shape])
  have fails : (c :: rest).head?.any (isFormOf letter) = false := isFormOf_of_isBlank blank shown
  rw [keyword, spell_eq_each, shape, List.map_cons, each_eq_none fails]

end Recogniser

end RoutineScripts
