import RoutineScripts.Proofs.Encoding.Utf8

/-!
# The order of texts and the order of their bytes

UTF-8 keeps the order of characters: of two characters, the one with the smaller number has the
smaller bytes, whatever follows them (`Utf8.encode_cons_lt`). A character that takes more bytes
starts with a greater one, and characters of the same length differ first where their numbers, in
digits to the base 64, do. So texts come in the order of their bytes (`Utf8.encode_lt_iff`).
-/

namespace RoutineScripts

namespace Utf8

/-- Byte sequences are compared at their first bytes, and behind them when these are the same. -/
theorem cons_lt_cons {n m : Nat} (small : n < 256) (smallToo : m < 256) (front back : Bytes) :
    UInt8.ofNat n :: front < UInt8.ofNat m :: back ↔ n < m ∨ n = m ∧ front < back := by
  rw [List.cons_lt_cons_iff, UInt8.lt_iff_toNat_lt, ← UInt8.toNat_inj,
    UInt8.toNat_ofNat_of_lt' small, UInt8.toNat_ofNat_of_lt' smallToo]

/-- Bytes with a smaller first one come first. -/
theorem cons_lt_of_lt {n m : Nat} (below : n < m) (small : m < 256) (front back : Bytes) :
    UInt8.ofNat n :: front < UInt8.ofNat m :: back :=
  (cons_lt_cons (Nat.lt_trans below small) small front back).mpr (Or.inl below)

section Characters

variable {v w : Nat} {front back : Bytes}

/-- Characters of two bytes are in the order of their numbers. -/
theorem lt_of_two (two : v ≤ 0x7FF) (below : v < w) (double : w ≤ 0x7FF) :
    UInt8.ofNat (v / 64 % 32 + 192) :: UInt8.ofNat (v % 64 + 128) :: front <
      UInt8.ofNat (w / 64 % 32 + 192) :: UInt8.ofNat (w % 64 + 128) :: back := by
  rw [cons_lt_cons (by omega) (by omega), cons_lt_cons (by omega) (by omega)]
  omega

/-- Characters of three bytes are in the order of their numbers. -/
theorem lt_of_three (three : v ≤ 0xFFFF) (below : v < w) (triple : w ≤ 0xFFFF) :
    UInt8.ofNat (v / 4096 % 16 + 224) :: UInt8.ofNat (v / 64 % 64 + 128) ::
        UInt8.ofNat (v % 64 + 128) :: front <
      UInt8.ofNat (w / 4096 % 16 + 224) :: UInt8.ofNat (w / 64 % 64 + 128) ::
        UInt8.ofNat (w % 64 + 128) :: back := by
  rw [cons_lt_cons (by omega) (by omega), cons_lt_cons (by omega) (by omega),
    cons_lt_cons (by omega) (by omega)]
  omega

/-- Characters of four bytes are in the order of their numbers. -/
theorem lt_of_four (below : v < w) (valid : w < 0x110000) :
    UInt8.ofNat (v / 262144 % 8 + 240) :: UInt8.ofNat (v / 4096 % 64 + 128) ::
        UInt8.ofNat (v / 64 % 64 + 128) :: UInt8.ofNat (v % 64 + 128) :: front <
      UInt8.ofNat (w / 262144 % 8 + 240) :: UInt8.ofNat (w / 4096 % 64 + 128) ::
        UInt8.ofNat (w / 64 % 64 + 128) :: UInt8.ofNat (w % 64 + 128) :: back := by
  rw [cons_lt_cons (by omega) (by omega), cons_lt_cons (by omega) (by omega),
    cons_lt_cons (by omega) (by omega), cons_lt_cons (by omega) (by omega)]
  by_cases first : v / 262144 = w / 262144
  · refine Or.inr ⟨by omega, ?_⟩
    by_cases second : v / 4096 = w / 4096
    · omega
    · have less : v / 4096 < w / 4096 := by omega
      exact Or.inl (by omega)
  · exact Or.inl (by omega)

end Characters

/-- **Characters keep their order.** -/
theorem encode_cons_lt {c d : Char} (below : c.toNat < d.toNat) (front back : Text) :
    encode (c :: front) < encode (d :: back) := by
  have valid : d.toNat < 0x110000 := by
    rcases d.valid with low | ⟨_, high⟩
    · exact Nat.lt_of_lt_of_le low (by decide)
    · exact high
  rw [encode, encode, List.flatMap_cons, List.flatMap_cons, String.utf8EncodeChar,
    String.utf8EncodeChar]
  change c.val.toNat < d.val.toNat at below
  change d.val.toNat < _ at valid
  generalize c.val.toNat = v at below ⊢
  generalize d.val.toNat = w at below valid ⊢
  -- The cases where both characters take as many bytes, and those where the second takes more.
  by_cases one : w ≤ 0x7F
  · rw [if_pos one, if_pos (by omega)]
    exact cons_lt_of_lt below (by omega) _ _
  · rw [if_neg one]
    by_cases two : w ≤ 0x7FF
    · rw [if_pos two]
      split
      · exact cons_lt_of_lt (by omega) (by omega) _ _
      · rw [if_pos (by omega)]
        exact lt_of_two (by omega) below two
    · rw [if_neg two]
      by_cases three : w ≤ 0xFFFF
      · rw [if_pos three]
        split
        · exact cons_lt_of_lt (by omega) (by omega) _ _
        · split
          · exact cons_lt_of_lt (by omega) (by omega) _ _
          · rw [if_pos (by omega)]
            exact lt_of_three (by omega) below three
      · rw [if_neg three]
        split
        · exact cons_lt_of_lt (by omega) (by omega) _ _
        · split
          · exact cons_lt_of_lt (by omega) (by omega) _ _
          · split
            · exact cons_lt_of_lt (by omega) (by omega) _ _
            · exact lt_of_four below valid

/-- A text that comes before another one does so in its bytes. -/
theorem encode_lt_of_precedes {left right : Text} (before : left.precedes right = true) :
    encode left < encode right := by
  induction left generalizing right with
  | nil =>
      cases right with
      | nil => cases before
      | cons d right =>
          obtain ⟨byte, others, bytes, _⟩ := first_encode d []
          rw [encode, encode, List.flatMap_cons, bytes]
          exact List.nil_lt_cons _ _
  | cons c left ih =>
      cases right with
      | nil => cases before
      | cons d right =>
          rw [Text.precedes] at before
          by_cases same : c.toNat = d.toNat
          · rw [if_pos same] at before
            rw [Char.toNat_inj.mp same, encode, encode, List.flatMap_cons, List.flatMap_cons]
            exact List.append_left_lt (ih before)
          · rw [if_neg same] at before
            exact encode_cons_lt (of_decide_eq_true before) left right

/-- **Texts come in the order of their bytes.** -/
theorem encode_lt_iff {left right : Text} :
    encode left < encode right ↔ left.precedes right = true := by
  refine ⟨fun below => ?_, encode_lt_of_precedes⟩
  refine Decidable.byContradiction fun notBefore => ?_
  by_cases same : left = right
  · rw [same] at below
    exact List.lt_irrefl _ below
  · exact List.lt_asymm below (encode_lt_of_precedes (Text.precedes_of_ne same notBefore))

end Utf8

end RoutineScripts
