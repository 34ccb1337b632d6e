import RoutineScripts.Text.Basic

/-!
# What a search finds

A search stops at the leftmost place that its test accepts (`search_eq_some_iff`), and it can be cut
in two at any place before which the test accepts nothing (`search_append`). A split at the first
occurrence of a text is the split with the shortest front (`Text.splitFirst?_eq_some_iff`).
-/

namespace RoutineScripts

section Search

variable {α β : Type} {test : Option α → List α → Option β}

/-- The test accepts at no place inside `front`, when `back` follows it. -/
def Misses (test : Option α → List α → Option β) (previous : Option α) (front back : List α) :
    Prop :=
  ∀ before c after, front = before ++ c :: after →
    test (before.getLast?.or previous) (c :: (after ++ back)) = none

theorem misses_nil {previous : Option α} {back : List α} : Misses test previous [] back := by
  intro before c after split
  simp at split

theorem misses_cons {previous : Option α} {c : α} {front back : List α} :
    Misses test previous (c :: front) back ↔
      test previous (c :: (front ++ back)) = none ∧ Misses test (some c) front back := by
  constructor
  · intro misses
    refine ⟨misses [] c front rfl, fun before d after split => ?_⟩
    have refused := misses (c :: before) d after (by rw [split, List.cons_append])
    rw [List.getLast?_cons] at refused
    cases last : before.getLast? <;> simpa [last] using refused
  · rintro ⟨refused, misses⟩ before d after split
    cases before with
    | nil =>
        obtain ⟨rfl, rfl⟩ := List.cons.inj split
        exact refused
    | cons b before =>
        obtain ⟨rfl, inner⟩ := List.cons.inj split
        have later := misses before d after inner
        rw [List.getLast?_cons]
        cases last : before.getLast? <;> simpa [last] using later

/-- Two fronts are missed one after the other. -/
theorem misses_append {previous : Option α} {front middle back : List α} :
    Misses test previous (front ++ middle) back ↔
      Misses test previous front (middle ++ back) ∧
        Misses test (front.getLast?.or previous) middle back := by
  induction front generalizing previous with
  | nil => simp [misses_nil]
  | cons c front ih =>
      have last : (c :: front).getLast?.or previous = front.getLast?.or (some c) := by
        rw [List.getLast?_cons]
        cases front.getLast? <;> rfl
      rw [List.cons_append, misses_cons, misses_cons, ih, last, List.append_assoc, and_assoc]

/-- A front is missed when the test fails at each of its places. -/
theorem misses_iff {previous : Option α} {front back : List α} :
    Misses test previous front back ↔
      ∀ passed rest, front ++ back = passed ++ rest → passed.length < front.length →
        test (passed.getLast?.or previous) rest = none := by
  constructor
  · intro misses passed rest split short
    obtain ⟨inner, rfl⟩ : passed <+: front :=
      List.prefix_of_prefix_length_le ⟨rest, split.symm⟩ ⟨back, rfl⟩ (Nat.le_of_lt short)
    obtain ⟨c, after, rfl⟩ : ∃ c after, inner = c :: after := by
      apply List.exists_cons_of_ne_nil
      rintro rfl
      simp at short
    obtain rfl : c :: (after ++ back) = rest := by simpa using split
    exact misses passed c after rfl
  · rintro refuses before c after rfl
    refine refuses before (c :: (after ++ back)) (by simp) ?_
    simp only [List.length_append, List.length_cons]
    omega

/-- **A search passes over what its test refuses.** -/
theorem search_append {previous : Option α} {front back : List α}
    (misses : Misses test previous front back) :
    search test previous (front ++ back) =
      (search test (front.getLast?.or previous) back).map
        fun (passed, found) => (front ++ passed, found) := by
  induction front generalizing previous with
  | nil => simp
  | cons c front ih =>
      obtain ⟨refused, later⟩ := misses_cons.mp misses
      rw [List.cons_append, search, refused, ih later, Option.map_map, List.getLast?_cons]
      cases front.getLast? <;> rfl

/-- The character before matters to a search only at its first place. -/
theorem search_congr_previous {first second : Option α} {list : List α}
    (same : test first list = test second list) :
    search test first list = search test second list := by
  cases list with
  | nil => rw [search, search, same]
  | cons c rest => rw [search, search, same]

/-- A test that disregards the element before a place may be started after any element. -/
theorem search_previous (ignores : ∀ first second list, test first list = test second list)
    (first second : Option α) (list : List α) :
    search test first list = search test second list :=
  search_congr_previous (ignores first second list)

/-- Tests that agree on everything that a list ends in find the same. -/
theorem search_congr {other : Option α → List α → Option β} {list : List α}
    (same : ∀ previous rest, rest <:+ list → test previous rest = other previous rest)
    (previous : Option α) : search test previous list = search other previous list := by
  induction list generalizing previous with
  | nil => rw [search, search, same previous [] (List.suffix_refl _)]
  | cons c list ih =>
      rw [search, search, same previous _ (List.suffix_refl _),
        ih fun previous rest suffix => same previous rest (suffix.trans (List.suffix_cons c list))]

/-- A test that accepts at once ends the search. -/
theorem search_of_accepts {previous : Option α} {list : List α} {found : β}
    (accepts : test previous list = some found) : search test previous list = some ([], found) := by
  cases list with
  | nil => rw [search, accepts, Option.map_some]
  | cons c rest => rw [search, accepts]

/-- What a search passes over is missed, and the test accepts right after it. -/
theorem misses_of_search {previous : Option α} {list passed : List α} {found : β}
    (result : search test previous list = some (passed, found)) :
    ∃ rest, list = passed ++ rest ∧ Misses test previous passed rest ∧
      test (passed.getLast?.or previous) rest = some found := by
  induction list generalizing previous passed with
  | nil =>
      simp only [search, Option.map_eq_some_iff, Prod.mk.injEq] at result
      obtain ⟨value, accepted, rfl, rfl⟩ := result
      exact ⟨[], rfl, misses_nil, accepted⟩
  | cons x rest ih =>
      simp only [search] at result
      split at result
      case h_1 value accepted =>
        simp only [Option.some.injEq, Prod.mk.injEq] at result
        obtain ⟨rfl, rfl⟩ := result
        exact ⟨x :: rest, rfl, misses_nil, accepted⟩
      case h_2 refused =>
        simp only [Option.map_eq_some_iff, Prod.exists, Prod.mk.injEq] at result
        obtain ⟨later, value, foundLater, rfl, rfl⟩ := result
        obtain ⟨tail, rfl, misses, accepted⟩ := ih foundLater
        refine ⟨tail, rfl, misses_cons.mpr ⟨refused, misses⟩, ?_⟩
        rw [List.getLast?_cons]
        cases last : later.getLast? <;> simpa [last] using accepted

/-- **Search is leftmost.** A search stops where its test first accepts. -/
theorem search_eq_some_iff {previous : Option α} {list passed : List α} {found : β} :
    search test previous list = some (passed, found) ↔
      ∃ rest, list = passed ++ rest ∧ Misses test previous passed rest ∧
        test (passed.getLast?.or previous) rest = some found := by
  refine ⟨misses_of_search, ?_⟩
  rintro ⟨rest, rfl, misses, accepts⟩
  rw [search_append misses, search_of_accepts accepts]
  simp

/-- A search fails when the whole list and its end are missed. -/
theorem search_eq_none_iff {previous : Option α} {list : List α} :
    search test previous list = none ↔
      Misses test previous list [] ∧ test (list.getLast?.or previous) [] = none := by
  induction list generalizing previous with
  | nil => simp [search, misses_nil]
  | cons c rest ih =>
      rw [misses_cons, List.append_nil, List.getLast?_cons, search]
      cases refused : test previous (c :: rest) with
      | some found => simp
      | none =>
          simp only [Option.map_eq_none_iff, ih, true_and]
          cases rest.getLast? <;> rfl

/-- A search fails when the test fails at every place, the end included. -/
theorem search_eq_none_iff_forall {previous : Option α} {list : List α} :
    search test previous list = none ↔
      ∀ passed rest, list = passed ++ rest → test (passed.getLast?.or previous) rest = none := by
  rw [search_eq_none_iff, misses_iff]
  constructor
  · rintro ⟨refuses, refusesEnd⟩ passed rest rfl
    by_cases last : rest = []
    · subst last
      simpa using refusesEnd
    · refine refuses passed rest (by simp) ?_
      have positive := List.length_pos_iff.mpr last
      simp only [List.length_append]
      omega
  · intro refuses
    refine ⟨fun passed rest split _ => refuses passed rest (by simpa using split), ?_⟩
    exact refuses list [] (by simp)

/-- A search finds something when its test accepts somewhere. -/
theorem search_isSome_iff {previous : Option α} {list : List α} :
    (search test previous list).isSome = true ↔
      ∃ passed rest, list = passed ++ rest ∧
        (test (passed.getLast?.or previous) rest).isSome = true := by
  constructor
  · intro found
    obtain ⟨⟨passed, value⟩, searched⟩ := Option.isSome_iff_exists.mp found
    obtain ⟨rest, split, accepts⟩ := eq_append_of_search searched
    exact ⟨passed, rest, split, by rw [accepts]; rfl⟩
  · rintro ⟨passed, rest, split, accepts⟩
    rw [Option.isSome_iff_ne_none]
    intro missed
    rw [search_eq_none_iff_forall.mp missed passed rest split] at accepts
    cases accepts

/-- **A search divides at a stop.** When the test sees in front of the stop what `other` sees at the
end of a list, the search stops where `other` first accepts, and otherwise after the stop. -/
theorem search_append_cons {stop : α} {back : List α} {other : Option α → List α → Option β}
    (same : ∀ previous front, test previous (front ++ stop :: back) = other previous front)
    (previous : Option α) (front : List α) :
    search test previous (front ++ stop :: back) =
      (search other previous front).or ((search test (some stop) back).map
        fun (passed, found) => (front ++ stop :: passed, found)) := by
  induction front generalizing previous with
  | nil =>
      have here := same previous []
      rw [List.nil_append] at here ⊢
      simp only [search, here]
      cases other previous [] <;> rfl
  | cons c front ih =>
      have here := same previous (c :: front)
      rw [List.cons_append] at here ⊢
      rw [search, here, search, ih]
      cases other previous (c :: front) with
      | some found => rfl
      | none =>
          simp only [Option.map_or, Option.map_map]
          rfl

/-- A search finds the same whatever follows a stop, when its test does so at each place before it
and accepts nothing after it. -/
theorem search_stop {stop : α} {back : List α}
    (same : ∀ previous front,
      test previous (front ++ stop :: back) = test previous (front ++ [stop]))
    (refused : search test (some stop) back = none) (refusedEnd : test (some stop) [] = none)
    (previous : Option α) (front : List α) :
    search test previous (front ++ stop :: back) = search test previous (front ++ [stop]) := by
  rw [search_append_cons same, search_append_cons (fun _ _ => rfl), refused, search, refusedEnd]
  rfl

/-- Converting what a test accepts converts what the search finds. -/
theorem search_map {γ : Type} (convert : β → γ) (previous : Option α) (list : List α) :
    search (fun previous rest => (test previous rest).map convert) previous list =
      (search test previous list).map fun (passed, found) => (passed, convert found) := by
  induction list generalizing previous with
  | nil => simp [search, Function.comp_def]
  | cons c rest ih =>
      rw [search, search]
      cases test previous (c :: rest) with
      | some found => rfl
      | none => simp [ih, Function.comp_def]

end Search

namespace Text

/-- A text is cut at the first occurrence of a character in one way only. -/
theorem append_cons_inj {z : Char} {first second firstRest secondRest : Text}
    (same : first ++ z :: firstRest = second ++ z :: secondRest) (firstFree : z ∉ first)
    (secondFree : z ∉ second) : first = second ∧ firstRest = secondRest := by
  induction first generalizing second with
  | nil =>
      cases second with
      | nil => exact ⟨rfl, (List.cons.inj same).2⟩
      | cons c second => exact absurd (by rw [(List.cons.inj same).1]; simp) secondFree
  | cons c first ih =>
      cases second with
      | nil => exact absurd (by rw [(List.cons.inj same).1]; simp) firstFree
      | cons d second =>
          obtain ⟨rfl, inner⟩ := List.cons.inj same
          obtain ⟨rfl, rfl⟩ := ih inner (fun member => firstFree (List.mem_cons_of_mem _ member))
            (fun member => secondFree (List.mem_cons_of_mem _ member))
          exact ⟨rfl, rfl⟩

/-- A part that does not hold a character ends before it. -/
theorem exists_append_of_not_mem {z : Char} {front back left right : Text}
    (split : front ++ z :: back = left ++ right) (absent : z ∉ left) :
    ∃ rest, front = left ++ rest ∧ right = rest ++ z :: back := by
  rcases List.append_eq_append_iff.mp split with ⟨more, rfl, tail⟩ | ⟨rest, rfl, tail⟩
  · cases more with
    | nil => exact ⟨[], by simp, by simpa using tail.symm⟩
    | cons c more =>
        obtain ⟨rfl, _⟩ := List.cons.inj tail
        exact absurd (by simp) absent
  · exact ⟨rest, rfl, tail⟩

/-- A part that does not hold a character starts after it. -/
theorem exists_cons_append_of_not_mem {z : Char} {front tail left right : Text}
    (split : front ++ tail = left ++ z :: right) (absent : z ∉ tail) :
    ∃ rest, front = left ++ z :: rest ∧ right = rest ++ tail := by
  rcases List.append_eq_append_iff.mp split with ⟨more, rfl, rfl⟩ | ⟨rest, rfl, shape⟩
  · exact absurd (by simp) absent
  · cases rest with
    | nil => exact absurd (by rw [← List.nil_append tail, ← shape]; simp) absent
    | cons c rest =>
        obtain ⟨rfl, rfl⟩ := List.cons.inj shape
        exact ⟨rest, rfl, rfl⟩

/-- What stands after a lead is the rest of the text. -/
theorem afterLead?_append (lead after : Text) : afterLead? lead (lead ++ after) = some after := by
  induction lead with
  | nil => rfl
  | cons a lead ih => rw [List.cons_append, afterLead?, if_pos rfl, ih]

/-- `needle` occurs in `text` nowhere before the end of `before`. -/
def FirstAfter (needle before text : Text) : Prop :=
  ∀ front back, text = front ++ needle ++ back → before.length ≤ front.length

theorem firstAfter_cons {needle before text : Text} {c : Char} :
    FirstAfter needle (c :: before) (c :: text) ↔
      afterLead? needle (c :: text) = none ∧ FirstAfter needle before text := by
  constructor
  · intro first
    constructor
    · cases found : afterLead? needle (c :: text) with
      | none => rfl
      | some after =>
          have short := first [] after (by rw [eq_append_of_afterLead? found, List.nil_append])
          simp at short
    · intro front back split
      have short := first (c :: front) back (by rw [split]; simp)
      simpa using short
  · rintro ⟨refused, first⟩ front back split
    cases front with
    | nil =>
        rw [List.nil_append] at split
        rw [split, afterLead?_append] at refused
        cases refused
    | cons d front =>
        rw [List.cons_append, List.cons_append] at split
        obtain ⟨rfl, inner⟩ := List.cons.inj split
        have short := first front back inner
        simpa using short

/-- **A split at the first occurrence.** The part before it is the shortest one there is. -/
theorem splitFirst?_eq_some_iff {needle text before after : Text} :
    splitFirst? needle text = some (before, after) ↔
      text = before ++ needle ++ after ∧ FirstAfter needle before text := by
  constructor
  · intro found
    refine ⟨eq_append_of_splitFirst? found, ?_⟩
    induction text generalizing before with
    | nil =>
        have split := eq_append_of_splitFirst? found
        simp only [List.nil_eq, List.append_eq_nil_iff] at split
        intro front back _
        simp [split.1.1]
    | cons c rest ih =>
        simp only [splitFirst?] at found
        split at found
        case h_1 tail first =>
          obtain ⟨rfl, rfl⟩ := Prod.mk.inj (Option.some.inj found)
          intro front back _
          simp
        case h_2 refused =>
          simp only [Option.map_eq_some_iff, Prod.exists, Prod.mk.injEq] at found
          obtain ⟨passed, tail, later, rfl, rfl⟩ := found
          exact firstAfter_cons.mpr ⟨refused, ih later⟩
  · rintro ⟨rfl, first⟩
    induction before with
    | nil =>
        simp only [List.nil_append]
        cases whole : needle ++ after with
        | nil =>
            obtain ⟨rfl, rfl⟩ := List.append_eq_nil_iff.mp whole
            rfl
        | cons c rest => rw [splitFirst?, ← whole, afterLead?_append]
    | cons c before ih =>
        have whole : FirstAfter needle (c :: before) (c :: (before ++ needle ++ after)) := first
        obtain ⟨refused, later⟩ := firstAfter_cons.mp whole
        rw [List.cons_append, List.cons_append, splitFirst?, refused, ih later, Option.map_some]

/-- What follows an occurrence cannot make an earlier one. -/
theorem FirstAfter.append {needle before : Text}
    (first : FirstAfter needle before (before ++ needle)) (after : Text) :
    FirstAfter needle before (before ++ needle ++ after) := by
  intro front back split
  apply Nat.le_of_not_lt
  intro short
  have within : (front ++ needle).length ≤ (before ++ needle).length := by
    simp only [List.length_append]
    omega
  have covered : front ++ needle <+: before ++ needle :=
    List.prefix_of_prefix_length_le ⟨back, split.symm⟩ (List.prefix_append _ after) within
  obtain ⟨rest, inner⟩ := covered
  have long := first front rest inner.symm
  omega

/-- The first occurrence of a needle does not depend on what follows it. -/
theorem FirstAfter.of_append {needle before after : Text}
    (first : FirstAfter needle before (before ++ needle ++ after)) :
    FirstAfter needle before (before ++ needle) := by
  intro front back split
  exact first front (back ++ after) (by rw [split, List.append_assoc])

end Text

end RoutineScripts
