import RoutineScripts.Proofs.Bytes.Transition
import RoutineScripts.Lexical.Position

/-!
# Keywords by bytes

A word of ASCII letters is compared with the bytes at an offset, without regard to letter case, and
the bytes next to it tell whether it is a whole word. A character outside ASCII is the lower-case
form of no letter of the word, and its bytes are those of no identifier, so this is the comparison
of the characters (`Checked.isKeywordAt_eq`). The byte before the word is looked at only where there
is one.
-/

namespace RoutineScripts

/-- A byte in lower case, if it is an ASCII letter. -/
def lowerByte (byte : UInt8) : UInt8 :=
  if onByte Char.isUpper byte then byte + 32 else byte

/-- A byte outside ASCII has no other case. -/
theorem lowerByte_of_le {byte : UInt8} (upper : 0x80 ≤ byte.toNat) : lowerByte byte = byte := by
  rw [lowerByte, onByte_of_le upper]
  rfl

/-- What holds of the lower-case form of every ASCII character. -/
theorem lowerByte_byteOf {c : Char} (ascii : c.toNat < 0x80) :
    lowerByte (byteOf c) = byteOf c.toLower ∧ c.toLower.toNat < 0x80 := by
  have all : ∀ n < 0x80, lowerByte (byteOf (Char.ofNat n)) = byteOf (Char.ofNat n).toLower ∧
      (Char.ofNat n).toLower.toNat < 0x80 := by
    decide +kernel
  have here := all c.toNat ascii
  rwa [Char.ofNat_toNat] at here

/-- A character outside ASCII keeps its letter case. -/
theorem toLower_of_le {c : Char} (upper : 0x80 ≤ c.toNat) : c.toLower = c := by
  unfold Char.toLower
  split
  case isTrue letter =>
    have bound := UInt32.le_iff_toNat_le.mp letter.2
    exact absurd (Nat.le_trans upper bound) (by decide)
  case isFalse => rfl

/-- Only an ASCII character has the lower-case form of one. -/
theorem ascii_of_toLower_eq {a c : Char} (ascii : a.toNat < 0x80) (same : a.toLower = c.toLower) :
    c.toNat < 0x80 := by
  refine Nat.lt_of_not_le fun upper => ?_
  have lower := (lowerByte_byteOf ascii).2
  rw [same, toLower_of_le upper] at lower
  exact Nat.not_lt.mpr upper lower

namespace Text

/-- A word takes as many bytes as what stands for it. -/
theorem byteLength_of_afterCaseless? {word text after : Text}
    (ascii : ∀ c ∈ word, c.toNat < 0x80) (found : afterCaseless? word text = some after) :
    ∃ front, text = front ++ after ∧ front.byteLength = word.byteLength := by
  induction word generalizing text with
  | nil =>
      cases found
      exact ⟨[], rfl, rfl⟩
  | cons a word ih =>
      obtain ⟨here, later⟩ := List.forall_mem_cons.mp ascii
      cases text with
      | nil => cases found
      | cons c rest =>
          rw [afterCaseless?] at found
          split at found
          case isTrue same =>
            obtain ⟨front, rfl, size⟩ := ih later found
            have asciiToo := ascii_of_toLower_eq here same
            refine ⟨c :: front, rfl, ?_⟩
            rw [byteLength_cons, byteLength_cons, size, utf8Size_of_lt here,
              utf8Size_of_lt asciiToo]
          case isFalse => cases found

/-- **Caseless comparison.** A word stands at the front of a text exactly where the lower-case forms
of their bytes agree. -/
theorem startsWithCaseless_iff {word : Text} (ascii : ∀ c ∈ word, c.toNat < 0x80) (text : Text) :
    text.startsWithCaseless word = true ↔ word.byteLength ≤ text.byteLength ∧
      ((Utf8.encode text).take word.byteLength).map lowerByte =
        (Utf8.encode word).map lowerByte := by
  rw [startsWithCaseless]
  induction word generalizing text with
  | nil => simp [afterCaseless?, Utf8.encode]
  | cons a word ih =>
      obtain ⟨here, later⟩ := List.forall_mem_cons.mp ascii
      rw [byteLength_cons, utf8Size_of_lt here, Utf8.encode_cons_of_ascii here]
      cases text with
      | nil => simp [afterCaseless?]
      | cons c rest =>
          rw [afterCaseless?]
          by_cases asciiToo : c.toNat < 0x80
          · have letters : lowerByte (byteOf c) = lowerByte (byteOf a) ↔ a.toLower = c.toLower := by
              obtain ⟨first, small⟩ := lowerByte_byteOf here
              obtain ⟨second, smallToo⟩ := lowerByte_byteOf asciiToo
              rw [first, second, byteOf_eq_iff smallToo small, eq_comm]
            rw [byteLength_cons, utf8Size_of_lt asciiToo, Utf8.encode_cons_of_ascii asciiToo,
              Nat.add_comm, List.take_succ_cons, List.map_cons, List.map_cons,
              List.cons.injEq, letters]
            split
            case isTrue same =>
              rw [ih later rest]
              simp [same, Nat.add_comm 1]
            case isFalse differs => simp [differs]
          · have upper : 0x80 ≤ c.toNat := Nat.not_lt.mp asciiToo
            obtain ⟨byte, found, high⟩ := upperAt_char [] upper rest c.utf8Size_pos
            obtain ⟨others, shape⟩ := List.head?_eq_some_iff.mp
              (List.head?_eq_getElem?.trans found)
            have differs : lowerByte byte ≠ lowerByte (byteOf a) := by
              obtain ⟨lower, small⟩ := lowerByte_byteOf here
              rw [lowerByte_of_le high, lower]
              exact ne_byteOf_of_le high small
            rw [if_neg fun same => asciiToo (ascii_of_toLower_eq here same), Nat.add_comm,
              show Utf8.encode (c :: rest) = byte :: others from shape, List.take_succ_cons]
            simp [differs]

end Text

namespace Checked

/-- Whether a text starts with a word, without regard to the case of ASCII letters. -/
def startsCaseless (text word : Text) : Checked Bool :=
  if word.byteLength ≤ text.byteLength then do
    let front ← bytesTo text word.byteLength
    return front.map lowerByte == (Utf8.encode word).map lowerByte
  else return false

/-- Whether the byte before an index belongs to an identifier. -/
def extendsBefore (text : Text) (index : Nat) : Checked Bool :=
  if index = 0 then return false
  else do
    let last ← minus index 1
    let byte ← byteAt text last
    return onByte isIdentifierChar byte

/-- Whether a word stands at an index as a whole word. -/
def isKeywordAt (text : Text) (index : Nat) (word : Text) : Checked Bool :=
  if (text.splitAtByte? index).isSome then do
    let rest ← sliceFrom text index
    if ← startsCaseless rest word then
      let before ← extendsBefore text index
      let after := (text.byte? (index + word.byteLength)).any (onByte isIdentifierChar)
      return !before && !after
    else return false
  else return false

/-- A word in ASCII is compared with the front of a text without a fault. -/
theorem startsCaseless_eq {word : Text} (ascii : ∀ c ∈ word, c.toNat < 0x80) (text : Text) :
    startsCaseless text word = .ok (text.startsWithCaseless word) := by
  have same := Text.startsWithCaseless_iff ascii text
  rw [startsCaseless]
  split
  case isTrue within =>
    rw [bytesTo, if_pos within, ok_bind]
    refine congrArg Except.ok (Bool.eq_iff_iff.mpr ?_)
    rw [same, beq_iff_eq]
    exact (and_iff_right within).symm
  case isFalse beyond =>
    have refused : text.startsWithCaseless word = false :=
      Bool.eq_false_iff.mpr fun starts => beyond (same.mp starts).1
    rw [refused]
    rfl

/-- Whether an identifier goes on before a place is told without a fault. -/
theorem extendsBefore_append (before rest : Text) :
    extendsBefore (before ++ rest) before.byteLength =
      .ok (before.getLast?.any isIdentifierChar) := by
  rcases List.eq_nil_or_concat before with rfl | ⟨(front : Text), c, rfl⟩
  · rfl
  · have positive := c.utf8Size_pos
    have place : Text.byteLength (front.concat c) =
        1 + (front.byteLength + (c.utf8Size - 1)) := by
      rw [List.concat_eq_append, Text.byteLength_append, Text.byteLength_cons, Text.byteLength_nil]
      omega
    have whole : front.concat c ++ rest = front ++ c :: rest := by simp
    have last : (front.concat c).getLast? = some c := by simp
    rw [extendsBefore, place, if_neg (by omega), minus_add, ok_bind, whole, last, Option.any_some]
    by_cases ascii : c.toNat < 0x80
    · rw [Text.utf8Size_of_lt ascii, Nat.sub_self, Nat.add_zero,
        byteAt_of_byte? (Text.byte?_ascii front ascii rest), ok_bind, onByte_byteOf ascii]
      rfl
    · have upper : 0x80 ≤ c.toNat := Nat.not_lt.mp ascii
      obtain ⟨byte, found, high⟩ := Text.upperAt_char front upper rest
        (Nat.sub_lt positive Nat.one_pos)
      have separates : isIdentifierChar c = false :=
        Bool.eq_false_iff.mpr fun identifier => ascii (onAscii_isIdentifierChar c identifier)
      rw [byteAt_of_byte? found, ok_bind, onByte_of_le high, separates]
      rfl

/-- **Keywords by bytes.** -/
theorem isKeywordAt_eq {word : Text} (ascii : ∀ c ∈ word, c.toNat < 0x80) (text : Text)
    (index : Nat) : isKeywordAt text index word = .ok (text.isKeywordAt index word) := by
  rw [isKeywordAt, Text.isKeywordAt]
  cases split : text.splitAtByte? index with
  | none => rfl
  | some parts =>
      obtain ⟨before, rest⟩ := parts
      obtain ⟨rfl, rfl⟩ := Text.splitAtByte?_eq_some_iff.mp split
      rw [if_pos Option.isSome_some, sliceFrom_append, ok_bind, startsCaseless_eq ascii, ok_bind,
        Text.startsWithCaseless]
      simp only [Text.keywordAt]
      cases found : Text.afterCaseless? word rest with
      | none => rfl
      | some after =>
          obtain ⟨front, rfl, size⟩ := Text.byteLength_of_afterCaseless? ascii found
          rw [if_pos Option.isSome_some, extendsBefore_append, ok_bind,
            Text.any_byte? onAscii_isIdentifierChar, ← size, ← Text.byteLength_append,
            ← List.append_assoc, Text.charAt?_append]
          rfl

end Checked

end RoutineScripts
