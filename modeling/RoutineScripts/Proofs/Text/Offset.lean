import RoutineScripts.Text.Basic

/-!
# Byte offsets

A byte offset that falls between two characters splits a text in two
(`Text.splitAtByte?_eq_some_iff`). An offset inside a character of several bytes splits nothing, so
no character stands there (`Text.charAt?_inside`). What is left of a text from any offset on is
described by `Text.dropBytes_cases`: the offset may be a split, it may cut a character, or it may
lie past the end.
-/

namespace RoutineScripts

namespace Text

/-- A text is split at the byte length of its front. -/
theorem splitAtByte?_append (front back : Text) :
    splitAtByte? (front ++ back) front.byteLength = some (front, back) := by
  induction front with
  | nil => cases back <;> rfl
  | cons c front ih =>
      have size : 0 < c.utf8Size := c.utf8Size_pos
      obtain ⟨offset, whole⟩ : ∃ offset, byteLength (c :: front) = offset + 1 :=
        ⟨c.utf8Size + byteLength front - 1, by rw [byteLength_cons]; omega⟩
      have left : offset + 1 - c.utf8Size = byteLength front := by
        rw [← whole, byteLength_cons]
        omega
      rw [whole, List.cons_append, splitAtByte?, if_pos (by rw [← whole, byteLength_cons]; omega),
        left, ih, Option.map_some]

/-- **Offsets that split.** A byte offset splits a text where a front has that many bytes. -/
theorem splitAtByte?_eq_some_iff {text front back : Text} {offset : Nat} :
    splitAtByte? text offset = some (front, back) ↔
      text = front ++ back ∧ byteLength front = offset := by
  constructor
  · intro found
    induction text generalizing offset front with
    | nil =>
        cases offset with
        | zero => cases found; exact ⟨rfl, rfl⟩
        | succ offset => cases found
    | cons c rest ih =>
        cases offset with
        | zero => cases found; exact ⟨rfl, rfl⟩
        | succ offset =>
            simp only [splitAtByte?] at found
            split at found
            case isTrue within =>
              simp only [Option.map_eq_some_iff, Prod.exists, Prod.mk.injEq] at found
              obtain ⟨inner, tail, split, rfl, rfl⟩ := found
              obtain ⟨rfl, size⟩ := ih split
              refine ⟨rfl, ?_⟩
              rw [byteLength_cons, size]
              omega
            case isFalse => cases found
  · rintro ⟨rfl, rfl⟩
    exact splitAtByte?_append front back

/-- An offset inside a character splits nothing. -/
theorem splitAtByte?_inside {c : Char} {inner : Nat} (front back : Text) (positive : 0 < inner)
    (short : inner < c.utf8Size) :
    splitAtByte? (front ++ c :: back) (front.byteLength + inner) = none := by
  cases found : splitAtByte? (front ++ c :: back) (front.byteLength + inner) with
  | none => rfl
  | some parts =>
      obtain ⟨left, right⟩ := parts
      obtain ⟨whole, size⟩ := splitAtByte?_eq_some_iff.mp found
      exfalso
      rcases List.append_eq_append_iff.mp whole with ⟨more, rfl, tail⟩ | ⟨more, rfl, _⟩
      · cases more with
        | nil =>
            rw [List.append_nil] at size
            omega
        | cons d more =>
            obtain ⟨rfl, _⟩ := List.cons.inj tail
            simp only [byteLength_append, byteLength_cons] at size
            omega
      · simp only [byteLength_append] at size
        omega

/-- The character at a byte offset. There is none inside a character or past the end. -/
def charAt? (text : Text) (offset : Nat) : Option Char :=
  match text.splitAtByte? offset with
  | some (_, rest) => rest.head?
  | none => none

/-- The character at the byte length of the front is the first one after it. -/
theorem charAt?_append (front back : Text) :
    charAt? (front ++ back) front.byteLength = back.head? := by
  rw [charAt?, splitAtByte?_append]

/-- No character starts inside the bytes of another one. -/
theorem charAt?_inside {c : Char} {inner : Nat} (front back : Text) (positive : 0 < inner)
    (short : inner < c.utf8Size) :
    charAt? (front ++ c :: back) (front.byteLength + inner) = none := by
  rw [charAt?, splitAtByte?_inside front back positive short]

/-- The bytes of the front are dropped without a remainder. -/
theorem dropBytes_append (front back : Text) :
    dropBytes (front ++ back) front.byteLength = (0, back) := by
  induction front with
  | nil => cases back <;> rfl
  | cons c front ih =>
      have size : 0 < c.utf8Size := c.utf8Size_pos
      obtain ⟨offset, whole⟩ : ∃ offset, byteLength (c :: front) = offset + 1 :=
        ⟨c.utf8Size + byteLength front - 1, by rw [byteLength_cons]; omega⟩
      have left : offset + 1 - c.utf8Size = byteLength front := by
        rw [← whole, byteLength_cons]
        omega
      rw [whole, List.cons_append, dropBytes, if_pos (by rw [← whole, byteLength_cons]; omega),
        left, ih]

/-- **What an offset leaves of a text.** The offset is a split, or it lies past the end, or it cuts
a character. -/
theorem dropBytes_cases {text rest : Text} {offset cut : Nat}
    (left : text.dropBytes offset = (cut, rest)) :
    (cut = 0 ∧ ∃ front, text = front ++ rest ∧ byteLength front = offset) ∨
      (cut = 0 ∧ rest = [] ∧ byteLength text < offset) ∨
      (0 < cut ∧ ∃ front c, text = front ++ c :: rest ∧ byteLength front < offset ∧
        byteLength front + c.utf8Size = offset + cut) := by
  induction text generalizing offset with
  | nil =>
      cases offset with
      | zero => cases left; exact Or.inl ⟨rfl, [], rfl, rfl⟩
      | succ offset => cases left; exact Or.inr (Or.inl ⟨rfl, rfl, Nat.succ_pos offset⟩)
  | cons c tail ih =>
      cases offset with
      | zero => cases left; exact Or.inl ⟨rfl, [], rfl, rfl⟩
      | succ offset =>
          simp only [dropBytes] at left
          split at left
          case isTrue within =>
            rcases ih left with ⟨none, front, rfl, size⟩ | ⟨none, rfl, past⟩ |
              ⟨some, front, d, rfl, before, size⟩
            · exact Or.inl ⟨none, c :: front, rfl, by rw [byteLength_cons]; omega⟩
            · exact Or.inr (Or.inl ⟨none, rfl, by rw [byteLength_cons]; omega⟩)
            · exact Or.inr (Or.inr ⟨some, c :: front, d, rfl, by rw [byteLength_cons]; omega,
                by rw [byteLength_cons]; omega⟩)
          case isFalse beyond =>
            cases left
            exact Or.inr (Or.inr ⟨by omega, [], c, rfl, Nat.succ_pos offset, by
              rw [byteLength_nil]
              omega⟩)

/-- Nothing is split at the bytes that are left of a character that an offset cuts. -/
theorem splitAtByte?_of_cut {text rest : Text} {offset cut place : Nat}
    (left : text.dropBytes offset = (cut, rest)) (lower : offset ≤ place)
    (upper : place < offset + cut) : text.splitAtByte? place = none := by
  rcases dropBytes_cases left with ⟨none, _⟩ | ⟨none, _⟩ | ⟨_, front, c, rfl, before, size⟩
  · omega
  · omega
  · obtain ⟨inner, rfl⟩ : ∃ inner, place = byteLength front + inner :=
      ⟨place - byteLength front, by omega⟩
    exact splitAtByte?_inside front rest (by omega) (by omega)

end Text

end RoutineScripts
