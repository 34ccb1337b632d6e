import RoutineScripts.Proofs.Routine.Exchange

/-!
# Where a comment statement opens

The words that open a comment statement are letters and white space (`Remark.IsOpening`). So a part
of a text that holds another character, and in which no such word starts, keeps them apart
(`Remark.Repels`): they stand before it or after it. Where no comment statement opens in a text,
none opens after such a part has taken the place of another one (`Remark.OpensNowhere.edit`).
-/

namespace RoutineScripts

namespace Remark

open Recogniser Text

/-- White space, at least one character of it. -/
def IsGap (gap : Text) : Prop :=
  gap ≠ [] ∧ ∀ c ∈ gap, isBlank c = true

/-- The word for a kind of routine. -/
def IsKind (kind : Text) : Prop :=
  Spells "FUNCTION".toList kind ∨ Spells "PROCEDURE".toList kind

/-- The words `COMMENT ON FUNCTION` or `COMMENT ON PROCEDURE`. -/
def IsOpening (words : Text) : Prop :=
  ∃ comment gap on space kind, words = comment ++ gap ++ on ++ space ++ kind ∧
    Spells "COMMENT".toList comment ∧ IsGap gap ∧ Spells "ON".toList on ∧ IsGap space ∧ IsKind kind

/-- A spelling starts with a form of its first letter. -/
theorem eq_cons_of_spells {letter : Char} {letters : List Char} {word : Text}
    (spells : Spells (letter :: letters) word) :
    ∃ c rest, word = c :: rest ∧ isFormOf letter c = true ∧ Spells letters rest := by
  cases word with
  | nil => cases spells
  | cons c rest => exact ⟨c, rest, rfl, spells.1, spells.2⟩

/-- A spelling of visible letters starts with a visible character. -/
theorem any_isBlank_of_spells {letter : Char} {letters : List Char} {word rest : Text}
    (visible : isBlank letter = false) (spells : Spells (letter :: letters) word) :
    (word ++ rest).head?.any isBlank = false := by
  obtain ⟨c, others, rfl, form, _⟩ := eq_cons_of_spells spells
  rw [List.cons_append, List.head?_cons, Option.any_some, Bool.eq_false_iff]
  intro blank
  rw [isFormOf_of_isBlank blank visible] at form
  cases form

/-- The two words for a kind of routine start differently. -/
theorem keyword_function_of_procedure {kind rest : Text}
    (spells : Spells "PROCEDURE".toList kind) : keyword "FUNCTION" (kind ++ rest) = none := by
  have first : "PROCEDURE".toList = 'P' :: "ROCEDURE".toList := rfl
  rw [first] at spells
  obtain ⟨c, others, rfl, form, _⟩ := eq_cons_of_spells spells
  have upper : c.toUpper = 'P' := by simpa [isFormOf] using form
  have differs : isFormOf 'F' c = false := by simp [isFormOf, upper]
  have letters : "FUNCTION".toList = 'F' :: "UNCTION".toList := rfl
  rw [keyword, letters, List.cons_append, spell, differs]
  rfl

/-- A kind is accepted when the text starts with its word. -/
theorem kind_eq_some_iff {text kind rest : Text} :
    Recogniser.orElse (.keyword "FUNCTION") (.keyword "PROCEDURE") text = some (kind, rest) ↔
      IsKind kind ∧ text = kind ++ rest := by
  rw [orElse_eq_some_iff, keyword_eq_some_iff, keyword_eq_some_iff]
  constructor
  · rintro (⟨spells, whole⟩ | ⟨_, spells, whole⟩)
    · exact ⟨Or.inl spells, whole⟩
    · exact ⟨Or.inr spells, whole⟩
  · rintro ⟨spells | spells, rfl⟩
    · exact Or.inl ⟨spells, rfl⟩
    · exact Or.inr ⟨keyword_function_of_procedure spells, spells, rfl⟩

/-- **What opens a comment statement.** -/
theorem opening_eq_some_iff {text words rest : Text} :
    opening text = some (words, rest) ↔ IsOpening words ∧ text = words ++ rest := by
  simp only [opening, Recogniser.sequence, List.foldr_cons, List.foldr_nil, andThen_eq_some_iff,
    keyword_eq_some_iff, blanks_eq_some_iff, kind_eq_some_iff, nothing, Option.some.injEq,
    Prod.mk.injEq]
  constructor
  · rintro ⟨comment, _, _, ⟨first, rfl⟩, ⟨gap, _, _, ⟨some, rfl, blank, _⟩, ⟨on, _, _,
      ⟨second, rfl⟩, ⟨space, _, _, ⟨more, rfl, blankToo, _⟩, ⟨kind, _, _, ⟨third, rfl⟩,
      ⟨rfl, rfl⟩, rfl⟩, rfl⟩, rfl⟩, rfl⟩, rfl⟩
    exact ⟨⟨comment, gap, on, space, kind, by simp, first, ⟨some, blank⟩, second, ⟨more, blankToo⟩,
      third⟩, by simp⟩
  · rintro ⟨⟨comment, gap, on, space, kind, rfl, first, ⟨some, blank⟩, second, ⟨more, blankToo⟩,
      third⟩, rfl⟩
    refine ⟨comment, _, _, ⟨first, by simp⟩, ⟨gap, _, _, ⟨some, rfl, blank, ?_⟩, ⟨on, _, _,
      ⟨second, rfl⟩, ⟨space, _, _, ⟨more, rfl, blankToo, ?_⟩, ⟨kind, _, _, ⟨third, rfl⟩, ⟨rfl, rfl⟩,
      rfl⟩, rfl⟩, rfl⟩, rfl⟩, by simp⟩
    · exact any_isBlank_of_spells (by decide) second
    · rcases third with spells | spells
      · exact any_isBlank_of_spells (by decide) spells
      · exact any_isBlank_of_spells (by decide) spells

/-- The word `IS` and the white space after it. -/
def IsIntroduction (words : Text) : Prop :=
  ∃ i s gap, words = i :: s :: gap ∧ isFormOf 'I' i = true ∧ isFormOf 'S' s = true ∧ IsGap gap

/-- **What introduces the literal of a comment statement.** -/
theorem introduction_eq_some_iff {text words rest : Text} :
    introduction text = some (words, rest) ↔
      IsIntroduction words ∧ text = words ++ rest ∧ rest.head?.any isBlank = false := by
  simp only [introduction, Recogniser.sequence, List.foldr_cons, List.foldr_nil,
    andThen_eq_some_iff, keyword_eq_some_iff, blanks_eq_some_iff, nothing, Option.some.injEq,
    Prod.mk.injEq]
  constructor
  · rintro ⟨word, _, _, ⟨spells, rfl⟩, ⟨gap, _, _, ⟨nonempty, rfl, blank, visible⟩, ⟨rfl, rfl⟩,
      rfl⟩, rfl⟩
    obtain ⟨i, _, rfl, isI, more⟩ := @eq_cons_of_spells _ ['S'] _ spells
    obtain ⟨s, _, rfl, isS, none⟩ := @eq_cons_of_spells _ [] _ more
    obtain rfl := List.eq_nil_of_length_eq_zero none.length_eq
    exact ⟨⟨i, s, gap, by simp, isI, isS, nonempty, blank⟩, by simp, visible⟩
  · rintro ⟨⟨i, s, gap, rfl, isI, isS, nonempty, blank⟩, rfl, visible⟩
    exact ⟨[i, s], _, _, ⟨⟨isI, isS, trivial⟩, by simp⟩,
      ⟨gap, _, _, ⟨nonempty, rfl, blank, visible⟩, ⟨rfl, rfl⟩, rfl⟩, by simp⟩

/-- No comment statement opens in a range of places exactly when its words stand nowhere there. -/
theorem opensNowhere_iff {text : Text} {first last : Nat} :
    OpensNowhere text first last ↔
      ∀ front words back, text = front ++ words ++ back → IsOpening words →
        first ≤ front.length → last ≤ front.length := by
  constructor
  · rintro quiet front words back rfl isOpening lower
    apply Nat.le_of_not_lt
    intro upper
    have refused := quiet front.length upper lower
    rw [List.append_assoc, List.drop_left, opening_eq_some_iff.mpr ⟨isOpening, rfl⟩] at refused
    cases refused
  · intro nowhere place upper lower
    cases found : opening (text.drop place) with
    | none => rfl
    | some parts =>
        obtain ⟨words, rest⟩ := parts
        obtain ⟨isOpening, split⟩ := opening_eq_some_iff.mp found
        have inside : place ≤ text.length := by
          apply Nat.le_of_not_lt
          intro past
          rw [List.drop_eq_nil_of_le (Nat.le_of_lt past)] at found
          cases found
        have size : (text.take place).length = place := List.length_take_of_le inside
        have later := nowhere (text.take place) words rest
          (by rw [List.append_assoc, ← split, List.take_append_drop]) isOpening (by omega)
        omega

/-- Whether a form of C is always followed by a character that is no form of O. -/
def neverOpens : Text → Bool
  | [] => true
  | c :: rest =>
      (!isFormOf 'C' c || rest.head?.any fun next => !isFormOf 'O' next) && neverOpens rest

/-- A front without the second letter goes on to open nothing, when the rest does not start with it.
-/
theorem neverOpens_append {front : Text} (back : Text) (free : ∀ c ∈ front, isFormOf 'O' c = false)
    (follows : (back.head?.any fun next => !isFormOf 'O' next) = true)
    (closed : neverOpens back = true) : neverOpens (front ++ back) = true := by
  induction front with
  | nil => exact closed
  | cons c front ih =>
      rw [List.forall_mem_cons] at free
      rw [List.cons_append, neverOpens, ih free.2, Bool.and_true, Bool.or_eq_true]
      refine Or.inr ?_
      cases front with
      | nil => exact follows
      | cons d front => simp [free.2 d List.mem_cons_self]

/-- In a text that opens nothing, the first letter is followed by another one than the second. -/
theorem exists_of_neverOpens {passed rest : Text} {c : Char}
    (closed : neverOpens (passed ++ c :: rest) = true) (form : isFormOf 'C' c = true) :
    ∃ d tail, rest = d :: tail ∧ isFormOf 'O' d = false := by
  induction passed with
  | nil =>
      have next := (Bool.and_eq_true_iff.mp closed).1
      rw [form, Bool.not_true, Bool.false_or] at next
      cases rest with
      | nil => cases next
      | cons d tail => exact ⟨d, tail, rfl, by simpa using next⟩
  | cons b passed ih => exact ih (Bool.and_eq_true_iff.mp closed).2

/-- A part of a text that no opening of a comment statement reaches into: it has a character that
none holds, after white space and dashes, and no opening starts in it. -/
structure Repels (new : Text) : Prop where
  barred : ∃ lead rest, new = lead ++ '@' :: rest ∧ ∀ c ∈ lead, isBlank c = true ∨ c = '-'
  closed : neverOpens new = true

theorem IsOpening.eq_cons {words : Text} (isOpening : IsOpening words) :
    ∃ c d rest, words = c :: d :: rest ∧ isFormOf 'C' c = true ∧ isFormOf 'O' d = true := by
  obtain ⟨comment, gap, on, space, kind, rfl, first, _⟩ := isOpening
  obtain ⟨c, others, rfl, isC, more⟩ := eq_cons_of_spells first
  obtain ⟨d, rest, rfl, isO, _⟩ := eq_cons_of_spells more
  exact ⟨c, d, rest ++ gap ++ on ++ space ++ kind, by simp, isC, isO⟩

/-- The letters of the words of an opening. -/
def openingLetters : List Char :=
  "COMMENTONFUNCTIONPROCEDURE".toList

/-- A character of a spelling is a form of one of the letters. -/
theorem exists_isFormOf_of_spells {letters : List Char} {word : Text}
    (spells : Spells letters word) {c : Char} (member : c ∈ word) :
    ∃ letter ∈ letters, isFormOf letter c = true := by
  induction letters generalizing word with
  | nil =>
      cases word with
      | nil => cases member
      | cons d word => cases spells
  | cons letter letters ih =>
      obtain ⟨d, rest, rfl, form, others⟩ := eq_cons_of_spells spells
      rcases List.mem_cons.mp member with rfl | later
      · exact ⟨letter, List.mem_cons_self, form⟩
      · obtain ⟨other, inside, same⟩ := ih others later
        exact ⟨other, List.mem_cons_of_mem _ inside, same⟩

/-- A character of a kind is a form of one of the letters of these words. -/
theorem IsKind.exists_isFormOf {kind : Text} (isKind : IsKind kind) {c : Char}
    (member : c ∈ kind) : ∃ letter ∈ openingLetters, isFormOf letter c = true := by
  rcases isKind with spells | spells
  · obtain ⟨letter, inside, form⟩ := exists_isFormOf_of_spells spells member
    exact ⟨letter, (by decide : "FUNCTION".toList ⊆ openingLetters) inside, form⟩
  · obtain ⟨letter, inside, form⟩ := exists_isFormOf_of_spells spells member
    exact ⟨letter, (by decide : "PROCEDURE".toList ⊆ openingLetters) inside, form⟩

/-- An opening is made of white space and forms of its letters. -/
theorem IsOpening.mem {words : Text} (isOpening : IsOpening words) {c : Char}
    (member : c ∈ words) :
    isBlank c = true ∨ ∃ letter ∈ openingLetters, isFormOf letter c = true := by
  obtain ⟨comment, gap, on, space, kind, rfl, first, isGap, second, isSpace, third⟩ := isOpening
  simp only [List.mem_append] at member
  rcases member with (((inside | inside) | inside) | inside) | inside
  · obtain ⟨letter, listed, form⟩ := exists_isFormOf_of_spells first inside
    exact Or.inr ⟨letter, (by decide : "COMMENT".toList ⊆ openingLetters) listed, form⟩
  · exact Or.inl (isGap.2 c inside)
  · obtain ⟨letter, listed, form⟩ := exists_isFormOf_of_spells second inside
    exact Or.inr ⟨letter, (by decide : "ON".toList ⊆ openingLetters) listed, form⟩
  · exact Or.inl (isSpace.2 c inside)
  · exact Or.inr (third.exists_isFormOf inside)

/-- A visible character that the letters avoid does not stand in these words. -/
theorem IsOpening.not_mem {words : Text} (isOpening : IsOpening words) {z : Char}
    (visible : isBlank z = false) (avoided : avoids z openingLetters = true) : z ∉ words := by
  intro member
  rcases isOpening.mem member with blank | ⟨letter, inside, form⟩
  · rw [blank] at visible
    cases visible
  · have other := List.all_eq_true.mp avoided letter inside
    simp [form] at other

/-- The words hold no at sign. -/
theorem IsOpening.at_not_mem {words : Text} (isOpening : IsOpening words) : '@' ∉ words :=
  isOpening.not_mem (by decide) (by decide)

/-- The words hold no semicolon. -/
theorem IsOpening.semicolon_not_mem {words : Text} (isOpening : IsOpening words) : ';' ∉ words :=
  isOpening.not_mem (by decide) (by decide)

/-- An opening ends in a letter. -/
theorem IsOpening.exists_visible {words front back : Text} (isOpening : IsOpening words)
    (split : words = front ++ back) (nonempty : back ≠ []) :
    ∃ c ∈ back, isBlank c = false ∧ c ≠ '-' := by
  obtain ⟨comment, gap, on, space, kind, rfl, _, _, _, _, third⟩ := isOpening
  have named : kind ≠ [] := by
    rintro rfl
    rcases third with spells | spells <;> cases spells
  obtain ⟨c, member, inKind⟩ : ∃ c ∈ back, c ∈ kind := by
    rcases List.append_eq_append_iff.mp split with ⟨more, _, rfl⟩ | ⟨more, _, rfl⟩
    · obtain ⟨c, member⟩ := List.exists_mem_of_ne_nil back nonempty
      exact ⟨c, member, List.mem_append_right _ member⟩
    · obtain ⟨c, member⟩ := List.exists_mem_of_ne_nil kind named
      exact ⟨c, List.mem_append_right _ member, member⟩
  obtain ⟨letter, listed, form⟩ := third.exists_isFormOf inKind
  refine ⟨c, member, ?_, ?_⟩
  · rw [Bool.eq_false_iff]
    intro blank
    have visible : openingLetters.all (!isBlank ·) = true := by decide
    rw [isFormOf_of_isBlank blank (by simpa using List.all_eq_true.mp visible letter listed)]
      at form
    cases form
  · rintro rfl
    have none : openingLetters.all (!isFormOf · '-') = true := by decide
    have other := List.all_eq_true.mp none letter listed
    simp [form] at other

/-- **Openings keep clear of what repels them.** -/
theorem Repels.beside {before new after front words back : Text} (repels : Repels new)
    (isOpening : IsOpening words) (split : before ++ new ++ after = front ++ words ++ back) :
    (∃ more, before = front ++ words ++ more) ∨
      ∃ later, front = before ++ new ++ later ∧ after = later ++ words ++ back := by
  by_cases ahead : (front ++ words).length ≤ before.length
  · obtain ⟨more, shape⟩ : front ++ words <+: before :=
      List.prefix_of_prefix_length_le ⟨back, split.symm⟩ ⟨new ++ after, by simp⟩ ahead
    exact Or.inl ⟨more, shape.symm⟩
  by_cases behind : (before ++ new).length ≤ front.length
  · obtain ⟨later, rfl⟩ : before ++ new <+: front :=
      List.prefix_of_prefix_length_le ⟨after, split⟩ ⟨words ++ back, by simp⟩ behind
    exact Or.inr ⟨later, rfl, by simpa using split⟩
  exfalso
  rw [List.length_append, Nat.not_le] at ahead behind
  by_cases inside : before.length ≤ front.length
  · -- The opening starts in `new`, where no form of C is followed by one of O.
    obtain ⟨c, d, rest, rfl, isC, isO⟩ := isOpening.eq_cons
    obtain ⟨passed, rfl⟩ : before <+: front :=
      List.prefix_of_prefix_length_le ⟨new ++ after, by simpa using split⟩
        ⟨c :: d :: rest ++ back, by simp⟩ inside
    have shape : passed ++ (c :: d :: (rest ++ back)) = new ++ after := by simpa using split.symm
    obtain ⟨tail, rfl⟩ : passed <+: new := by
      refine List.prefix_of_prefix_length_le ⟨_, shape⟩ ⟨after, rfl⟩ ?_
      rw [List.length_append] at behind
      omega
    have follows : c :: d :: (rest ++ back) = tail ++ after := by simpa using shape
    cases tail with
    | nil => simp at behind
    | cons e tail =>
        obtain ⟨rfl, next⟩ := List.cons.inj follows
        obtain ⟨other, others, rfl, differs⟩ := exists_of_neverOpens repels.closed isC
        obtain ⟨rfl, _⟩ := List.cons.inj next
        rw [differs] at isO
        cases isO
  · -- The opening starts before `new` and ends in its lead, which holds no letter.
    obtain ⟨lead, rest, rfl, plain⟩ := repels.barred
    obtain ⟨start, rfl⟩ : front <+: before :=
      List.prefix_of_prefix_length_le ⟨words ++ back, by simpa using split.symm⟩
        ⟨lead ++ '@' :: rest ++ after, by simp⟩ (by omega)
    obtain ⟨others, reached, _⟩ := exists_append_of_not_mem
      (show (start ++ lead) ++ '@' :: (rest ++ after) = words ++ back by simpa using split)
      isOpening.at_not_mem
    obtain ⟨ending, rfl⟩ : start <+: words := by
      refine List.prefix_of_prefix_length_le ⟨lead, reached⟩ ⟨others, rfl⟩ ?_
      rw [List.length_append] at ahead
      omega
    have nonempty : ending ≠ [] := by
      rintro rfl
      simp at ahead
    obtain ⟨c, member, visible, other⟩ := isOpening.exists_visible rfl nonempty
    have inLead : c ∈ lead := by
      rw [List.append_assoc] at reached
      rw [List.append_cancel_left reached]
      exact List.mem_append_left _ member
    rcases plain c inLead with blank | dash
    · rw [blank] at visible
      cases visible
    · exact other dash

/-- **Comment statements after an edit.** Where none opens, none opens after a part that repels
them has taken the place of another part. -/
theorem OpensNowhere.edit {before old new rest after : Text} {first : Nat} (repels : Repels new)
    (lower : first ≤ before.length)
    (quiet : OpensNowhere (before ++ old ++ (rest ++ after)) first
      (before ++ old ++ rest).length) :
    OpensNowhere (before ++ new ++ (rest ++ after)) first (before ++ new ++ rest).length := by
  rw [opensNowhere_iff] at quiet ⊢
  intro front words back split isOpening within
  rcases repels.beside isOpening split with ⟨more, rfl⟩ | ⟨later, rfl, tail⟩
  · have past := quiet front words (more ++ old ++ (rest ++ after)) (by simp) isOpening within
    obtain ⟨c, d, others, rfl, _, _⟩ := isOpening.eq_cons
    simp only [List.length_append, List.length_cons] at past
    omega
  · have past := quiet (before ++ old ++ later) words back (by rw [tail]; simp) isOpening (by
      simp only [List.length_append]
      omega)
    simp only [List.length_append] at past ⊢
    omega

end Remark

end RoutineScripts
