/-!
# Texts

A text is the list of its characters, so that everything said about a text is said by
recursion on that list. Places in a text are given by splitting it: a search returns what was
passed over and what was found. Byte offsets are the lengths of such prefixes in UTF-8.

The main definitions are `Text.byteLength`, the two searches `Text.splitFirst?` and `search`, and
`Text.splitAtByte?`, which turns a byte offset back into a split.
-/

namespace RoutineScripts

/-- A text, as the list of its characters. -/
abbrev Text := List Char

/-- A sequence of bytes. -/
abbrev Bytes := List UInt8

/-- Leftmost search in a list. At each place the test sees the element before that place, if
there is one, and everything from that place on. The result is the part passed over and what the
test found. -/
def search {α β : Type} (test : Option α → List α → Option β) :
    Option α → List α → Option (List α × β)
  | previous, [] => (test previous []).map ([], ·)
  | previous, x :: rest =>
      match test previous (x :: rest) with
      | some found => some ([], found)
      | none => (search test (some x) rest).map fun (passed, found) => (x :: passed, found)

/-- **Search splits its list.** What was passed over is a front of the list, and the test accepts
what comes after it. -/
theorem eq_append_of_search {α β : Type} {test : Option α → List α → Option β}
    {previous : Option α} {list passed : List α} {found : β}
    (result : search test previous list = some (passed, found)) :
    ∃ rest, list = passed ++ rest ∧ test (passed.getLast?.or previous) rest = some found := by
  induction list generalizing previous passed with
  | nil =>
      simp only [search, Option.map_eq_some_iff, Prod.mk.injEq] at result
      obtain ⟨value, accepted, rfl, rfl⟩ := result
      exact ⟨[], rfl, accepted⟩
  | cons x rest ih =>
      simp only [search] at result
      split at result
      case h_1 value accepted =>
        simp only [Option.some.injEq, Prod.mk.injEq] at result
        obtain ⟨rfl, rfl⟩ := result
        exact ⟨x :: rest, rfl, accepted⟩
      case h_2 =>
        simp only [Option.map_eq_some_iff, Prod.exists, Prod.mk.injEq] at result
        obtain ⟨later, value, foundLater, rfl, rfl⟩ := result
        obtain ⟨tail, split, accepted⟩ := ih foundLater
        refine ⟨tail, by rw [split, List.cons_append], ?_⟩
        cases later <;> simpa [List.getLast?_cons] using accepted

namespace Text

/-- Number of bytes of a text in UTF-8. -/
def byteLength : Text → Nat
  | [] => 0
  | c :: rest => c.utf8Size + byteLength rest

/-- An empty text takes no bytes. -/
@[simp]
theorem byteLength_nil : byteLength [] = 0 := rfl

/-- A text takes the bytes of its first character and those of the rest. -/
@[simp]
theorem byteLength_cons (c : Char) (rest : Text) :
    byteLength (c :: rest) = c.utf8Size + byteLength rest := rfl

/-- The bytes of two texts add up. -/
@[simp]
theorem byteLength_append (left right : Text) :
    byteLength (left ++ right) = byteLength left + byteLength right := by
  induction left with
  | nil => simp
  | cons c rest ih => simp [ih, Nat.add_assoc]

/-- What follows `lead` at the front of a text. -/
def afterLead? : Text → Text → Option Text
  | [], text => some text
  | _ :: _, [] => none
  | a :: lead, c :: rest => if a = c then afterLead? lead rest else none

/-- What comes before `tail` at the end of a text. -/
def beforeTail? (tail text : Text) : Option Text :=
  (afterLead? tail.reverse text.reverse).map List.reverse

/-- A lead and what stands after it make up the text. -/
theorem eq_append_of_afterLead? {lead text after : Text}
    (found : afterLead? lead text = some after) : text = lead ++ after := by
  induction lead generalizing text with
  | nil => cases found; rfl
  | cons a lead ih =>
      cases text with
      | nil => cases found
      | cons c rest =>
          simp only [afterLead?] at found
          split at found
          case isTrue same => rw [same, ih found, List.cons_append]
          case isFalse => cases found

/-- What stands before a tail and the tail make up the text. -/
theorem eq_append_of_beforeTail? {tail text before : Text}
    (found : beforeTail? tail text = some before) : text = before ++ tail := by
  simp only [beforeTail?, Option.map_eq_some_iff] at found
  obtain ⟨reversed, front, rfl⟩ := found
  rw [← List.reverse_inj, eq_append_of_afterLead? front]
  simp

/-- The text before and after the first occurrence of `needle`. -/
def splitFirst? (needle : Text) : Text → Option (Text × Text)
  | [] => if needle.isEmpty then some ([], []) else none
  | c :: rest =>
      match afterLead? needle (c :: rest) with
      | some after => some ([], after)
      | none => (splitFirst? needle rest).map fun (before, after) => (c :: before, after)

/-- The parts of a split at the first occurrence make up the text. -/
theorem eq_append_of_splitFirst? {needle text before after : Text}
    (found : splitFirst? needle text = some (before, after)) :
    text = before ++ needle ++ after := by
  induction text generalizing before with
  | nil =>
      simp only [splitFirst?] at found
      split at found
      case isTrue empty =>
        simp only [Option.some.injEq, Prod.mk.injEq] at found
        obtain ⟨rfl, rfl⟩ := found
        simp [List.isEmpty_iff.mp empty]
      case isFalse => cases found
  | cons c rest ih =>
      simp only [splitFirst?] at found
      split at found
      case h_1 tail first =>
        simp only [Option.some.injEq, Prod.mk.injEq] at found
        obtain ⟨rfl, rfl⟩ := found
        exact eq_append_of_afterLead? first
      case h_2 =>
        simp only [Option.map_eq_some_iff, Prod.exists, Prod.mk.injEq] at found
        obtain ⟨passed, tail, later, rfl, rfl⟩ := found
        rw [ih later]
        rfl

/-- Whether `needle` occurs in a text. -/
def occursIn (needle text : Text) : Bool :=
  (splitFirst? needle text).isSome

/-- The text with ASCII letters in upper case. -/
def asciiUpper (text : Text) : Text :=
  text.map Char.toUpper

/-- The text with ASCII letters in lower case. -/
def asciiLower (text : Text) : Text :=
  text.map Char.toLower

/-- Whether a text comes before another one, character by character. This is also the order of the
bytes of the texts in UTF-8. -/
def precedes : Text → Text → Bool
  | _, [] => false
  | [], _ :: _ => true
  | a :: left, b :: right =>
      if a.toNat = b.toNat then precedes left right else a.toNat < b.toNat

/-- No text comes before itself. -/
theorem precedes_irrefl (text : Text) : text.precedes text = false := by
  induction text with
  | nil => rfl
  | cons c rest ih => simp [precedes, ih]

/-- The order of texts is transitive. -/
theorem precedes_trans {first second third : Text} (before : first.precedes second = true)
    (after : second.precedes third = true) : first.precedes third = true := by
  induction first generalizing second third with
  | nil =>
      cases second <;> cases third <;> simp_all [precedes]
  | cons a left ih =>
      cases second with
      | nil => simp [precedes] at before
      | cons b middle =>
          cases third with
          | nil => simp [precedes] at after
          | cons c right =>
              simp only [precedes] at before after ⊢
              by_cases leftSame : a.toNat = b.toNat
              · by_cases rightSame : b.toNat = c.toNat
                · rw [if_pos leftSame] at before
                  rw [if_pos rightSame] at after
                  rw [if_pos (leftSame.trans rightSame)]
                  exact ih before after
                · rw [if_neg rightSame, ← leftSame] at after
                  rw [if_neg (leftSame ▸ rightSame)]
                  exact after
              · rw [if_neg leftSame] at before
                by_cases rightSame : b.toNat = c.toNat
                · rw [if_neg (rightSame ▸ leftSame), ← rightSame]
                  exact before
                · rw [if_neg rightSame] at after
                  simp only [decide_eq_true_eq] at before after
                  rw [if_neg (by omega), decide_eq_true_eq]
                  omega

/-- Two texts of which neither comes before the other are equal. -/
theorem precedes_of_ne {left right : Text} (different : left ≠ right)
    (notBefore : ¬ left.precedes right = true) : right.precedes left = true := by
  induction left generalizing right with
  | nil =>
      cases right with
      | nil => exact absurd rfl different
      | cons b right => simp [precedes] at notBefore
  | cons a left ih =>
      cases right with
      | nil => rfl
      | cons b right =>
          simp only [precedes] at notBefore ⊢
          by_cases same : a.toNat = b.toNat
          · rw [if_pos same] at notBefore
            rw [if_pos same.symm]
            refine ih (fun equal => different ?_) notBefore
            rw [equal, Char.toNat_inj.mp same]
          · rw [if_neg same] at notBefore
            rw [if_neg (Ne.symm same)]
            simp only [decide_eq_true_eq] at notBefore ⊢
            omega

/-- Splits a text at a byte offset. There is no split past the end or inside a character. -/
def splitAtByte? : Text → Nat → Option (Text × Text)
  | text, 0 => some ([], text)
  | [], _ + 1 => none
  | c :: rest, offset + 1 =>
      if c.utf8Size ≤ offset + 1 then
        (splitAtByte? rest (offset + 1 - c.utf8Size)).map fun (before, after) =>
          (c :: before, after)
      else
        none

/-- What is left of a text from a byte offset on: the number of bytes that remain of a character
cut by the offset, and the whole characters after it. Past the end nothing is left. -/
def dropBytes : Text → Nat → Nat × Text
  | text, 0 => (0, text)
  | [], _ + 1 => (0, [])
  | c :: rest, offset + 1 =>
      if c.utf8Size ≤ offset + 1 then
        dropBytes rest (offset + 1 - c.utf8Size)
      else
        (c.utf8Size - (offset + 1), rest)

end Text

end RoutineScripts
