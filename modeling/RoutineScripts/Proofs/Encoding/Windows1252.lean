import RoutineScripts.Encoding.Windows1252
import RoutineScripts.Proofs.Encoding.Utf8

/-!
# Writing Windows-1252 back

Every byte has a character of its own, so bytes that are read as Windows-1252 are written back as
they were (`Windows1252.encode_decode`). Bytes with a byte order mark are read in the encoding that
the mark names and without the mark, and then the text in Windows-1252 is never the bytes that were
read (`Windows1252.encode_sniff_ne`). The reason is a count. All bytes of the marks pass a test that
`&` fails, with which a character without a byte starts. At the front of the text, each character
whose byte passes the test takes two bytes that pass it, and is written as one; so too few such
bytes are written for the mark to be among them.
-/

namespace RoutineScripts

namespace Windows1252

/-- The character of a byte is written as that byte. -/
theorem byte?_char (byte : UInt8) : byte? (char byte) = some byte := by
  have checked : ∀ n < 256, byte? (char (UInt8.ofNat n)) = some (UInt8.ofNat n) := by
    decide +kernel
  rw [← UInt8.ofNat_toNat (x := byte)]
  exact checked byte.toNat byte.toNat_lt

/-- **Bytes are written back.** -/
theorem encode_decode (bytes : Bytes) : encode (decode bytes) = bytes := by
  induction bytes with
  | nil => rfl
  | cons byte bytes ih =>
      have first : encode (decode (byte :: bytes)) = byte :: encode (decode bytes) := by
        rw [decode, encode, List.map_cons, List.flatMap_cons, byte?_char]
        rfl
      rw [first, ih]

/-- A character is that of the byte it is written as. -/
theorem char_of_byte? {c : Char} {byte : UInt8} (found : byte? c = some byte) : char byte = c := by
  rw [byte?] at found
  split at found
  case isTrue direct =>
    cases found
    simp only [Bool.or_eq_true, Bool.and_eq_true, decide_eq_true_eq] at direct
    have small : c.toNat < 256 := by omega
    have same : (UInt8.ofNat c.toNat).toNat = c.toNat := UInt8.toNat_ofNat_of_lt' small
    rw [char, same, if_neg (by simp only [Bool.and_eq_true, decide_eq_true_eq]; omega),
      Char.ofNat_toNat]
  case isFalse =>
    obtain ⟨place, listed, rfl⟩ := Option.map_eq_some_iff.mp found
    obtain ⟨inside, same, _⟩ := List.findIdx?_eq_some_iff_getElem.mp listed
    have below : place < 32 := inside
    have small : 0x80 + place < 256 := by omega
    have number : (UInt8.ofNat (0x80 + place)).toNat = 0x80 + place :=
      UInt8.toNat_ofNat_of_lt' small
    rw [char, number, if_pos (by simp only [Bool.and_eq_true, decide_eq_true_eq]; omega),
      Nat.add_sub_cancel_left, List.getD_eq_getElem?_getD, List.getElem?_eq_getElem inside]
    exact eq_of_beq same

/-- What is at the front of an encoded text. A character without a byte starts with `&`. -/
theorem length_takeWhile_encode {test : UInt8 → Bool} (escape : test 0x26 = false) (text : Text) :
    ((encode text).takeWhile test).length =
      (text.takeWhile fun c => (byte? c).any test).length := by
  induction text with
  | nil => rfl
  | cons c text ih =>
      rw [encode, List.flatMap_cons, ← encode, List.takeWhile_cons]
      cases byte? c with
      | none =>
          have start : Utf8.encode ("&#".toList ++ decimal c.toNat ++ ";".toList) =
              0x26 :: Utf8.encode ("#".toList ++ decimal c.toNat ++ ";".toList) := rfl
          simp only [start, List.cons_append, List.takeWhile_cons, escape, Option.any_none]
          rfl
      | some byte =>
          cases tested : test byte with
          | false => simp [tested]
          | true => simp [tested, ih]

/-- A text is not written as the bytes it was read from if they start with a mark, its first
characters took two bytes each, and the bytes of the mark count like those. -/
theorem encode_ne_of_takeWhile {test : UInt8 → Bool} (mark : Bytes) {rest : Bytes} {text : Text}
    (escape : test 0x26 = false) (marked : mark ≠ []) (counts : mark.all test = true)
    (double : 2 * (text.takeWhile fun c => (byte? c).any test).length ≤
      (rest.takeWhile test).length) :
    encode text ≠ mark ++ rest := by
  intro same
  have lengths := congrArg (fun bytes => (bytes.takeWhile test).length) same
  simp only [length_takeWhile_encode escape,
    List.takeWhile_append_of_pos (List.all_eq_true.mp counts), List.length_append] at lengths
  have := List.length_pos_iff.mpr marked
  omega

section Marks

variable {c : Char}

/-- Whether a byte is none of ASCII. -/
def isUpper (byte : UInt8) : Bool :=
  0x80 ≤ byte

/-- A number between 128 and 255 is a byte outside ASCII. -/
theorem isUpper_ofNat {n : Nat} (above : 128 ≤ n) (below : n < 256) :
    isUpper (UInt8.ofNat n) = true := by
  rw [isUpper, decide_eq_true_iff, UInt8.le_iff_toNat_le, UInt8.toNat_ofNat_of_lt' below]
  exact above

/-- A character outside ASCII is written as a byte outside it. -/
theorem le_toNat_of_isUpper (upper : (byte? c).any isUpper = true) : 0x80 ≤ c.toNat := by
  refine Nat.not_lt.mp fun ascii => ?_
  have small : c.toNat < 256 := by omega
  have found : byte? c = some (UInt8.ofNat c.toNat) := by
    rw [byte?]
    exact if_pos (by simp only [Bool.or_eq_true, decide_eq_true_eq]; omega)
  rw [found, Option.any_some, isUpper, decide_eq_true_iff, UInt8.le_iff_toNat_le,
    UInt8.toNat_ofNat_of_lt' small] at upper
  exact Nat.not_le.mpr ascii upper

/-- A character that is none of ASCII takes two bytes or more in UTF-8, none of them of ASCII. -/
theorem isUpper_of_mem_utf8EncodeChar (upper : 0x80 ≤ c.toNat) :
    2 ≤ (String.utf8EncodeChar c).length ∧
      ∀ byte ∈ String.utf8EncodeChar c, isUpper byte = true := by
  have valid : c.toNat < 0xD800 ∨ 0xDFFF < c.toNat ∧ c.toNat < 0x110000 := c.valid
  rw [String.utf8EncodeChar]
  simp only [Char.toNat] at upper valid ⊢
  generalize c.val.toNat = v at upper valid
  have last : isUpper (UInt8.ofNat (v % 64 + 128)) = true := isUpper_ofNat (by omega) (by omega)
  have middle : isUpper (UInt8.ofNat (v / 64 % 64 + 128)) = true :=
    isUpper_ofNat (by omega) (by omega)
  rw [if_neg (by omega)]
  split
  · have first : isUpper (UInt8.ofNat (v / 64 % 32 + 192)) = true :=
      isUpper_ofNat (by omega) (by omega)
    exact ⟨Nat.le_refl 2, by simp only [List.forall_mem_cons, first, last]; simp⟩
  split
  · have first : isUpper (UInt8.ofNat (v / 4096 % 16 + 224)) = true :=
      isUpper_ofNat (by omega) (by omega)
    exact ⟨Nat.le_add_left 2 1, by simp only [List.forall_mem_cons, first, middle, last]; simp⟩
  · have first : isUpper (UInt8.ofNat (v / 262144 % 8 + 240)) = true :=
      isUpper_ofNat (by omega) (by omega)
    have second : isUpper (UInt8.ofNat (v / 4096 % 64 + 128)) = true :=
      isUpper_ofNat (by omega) (by omega)
    exact ⟨Nat.le_add_left 2 2,
      by simp only [List.forall_mem_cons, first, second, middle, last]; simp⟩

/-- In UTF-8, each of the first characters above ASCII takes two bytes above ASCII. -/
theorem double_decode_utf8 (bytes : Bytes) :
    2 * ((Utf8.decode bytes).takeWhile fun c => (byte? c).any isUpper).length ≤
      (bytes.takeWhile isUpper).length := by
  rw [Utf8.decode]
  induction bytes using Utf8.read.induct with
  | case1 =>
      rw [Utf8.read]
      exact Nat.le_refl 0
  | case2 byte rest ih =>
      rw [Utf8.read, List.map_cons, List.takeWhile_cons]
      cases found : (Utf8.first byte rest).1 with
      | none =>
          have unwritten : (byte? ((none : Option Char).getD '\uFFFD')).any isUpper = false := by
            decide
          rw [unwritten]
          exact Nat.zero_le _
      | some c =>
          cases upper : (byte? c).any isUpper with
          | false => simp [upper]
          | true =>
              obtain ⟨others, tail, rfl, length, spelled⟩ :=
                Utf8.starts_of_first
                  (Prod.ext found rfl : Utf8.first byte rest = (some c, (Utf8.first byte rest).2))
              obtain ⟨two, all⟩ := isUpper_of_mem_utf8EncodeChar (le_toNat_of_isUpper upper)
              rw [← length, List.drop_left] at ih ⊢
              rw [spelled] at two all
              rw [← List.cons_append, List.takeWhile_append_of_pos all]
              simp only [Option.getD_some, upper, if_true, List.length_cons, List.length_append]
                at two ih ⊢
              omega

/-- The bytes of the marks of UTF-16, and the byte that comes with them in a unit. -/
def isNarrow (byte : UInt8) : Bool :=
  byte == 0x00 || byte == 0xFE || byte == 0xFF

/-- The narrow bytes are those of three characters. -/
theorem toNat_of_isNarrow (narrow : (byte? c).any isNarrow = true) :
    c.toNat = 0 ∨ c.toNat = 0xFE ∨ c.toNat = 0xFF := by
  cases found : byte? c with
  | none =>
      rw [found] at narrow
      cases narrow
  | some byte =>
      rw [found, Option.any_some, isNarrow] at narrow
      simp only [Bool.or_eq_true, beq_iff_eq] at narrow
      rw [← char_of_byte? found]
      rcases narrow with (rfl | rfl) | rfl <;> decide

/-- No pair of surrogates is written as a narrow byte. -/
theorem not_isNarrow_pair {leading trailing : Nat} (first : Utf16.isLeading leading = true)
    (second : Utf16.isTrailing trailing = true) :
    (byte? (Utf16.pair leading trailing)).any isNarrow = false := by
  rw [Utf16.isLeading, Bool.and_eq_true, decide_eq_true_iff, decide_eq_true_iff] at first
  rw [Utf16.isTrailing, Bool.and_eq_true, decide_eq_true_iff, decide_eq_true_iff] at second
  have number : (Utf16.pair leading trailing).toNat =
      0x10000 + (leading - 0xD800) * 0x400 + (trailing - 0xDC00) :=
    Utf8.toNat_ofNat_of_valid (by omega)
  refine Bool.eq_false_iff.mpr fun narrow => ?_
  have := toNat_of_isNarrow narrow
  omega

/-- A unit whose character is one of the three is the number of that character. -/
theorem eq_of_isNarrow_single {unit : Nat} (small : unit < 65536)
    (narrow : (byte? (Utf16.single unit)).any isNarrow = true) :
    unit = 0 ∨ unit = 0xFE ∨ unit = 0xFF := by
  have cases := toNat_of_isNarrow narrow
  rw [Utf16.single] at cases
  split at cases
  case isTrue => exact absurd cases (by decide)
  case isFalse single =>
    simp only [Utf16.isLeading, Utf16.isTrailing, Bool.or_eq_true, Bool.and_eq_true,
      decide_eq_true_eq] at single
    have number : (Char.ofNat unit).toNat = unit := Utf8.toNat_ofNat_of_valid (by omega)
    rwa [number] at cases

/-- One unit of UTF-16 is the first character, or that character is none of the three. -/
theorem ofUnits_cons (unit : Nat) (units : List (Option Nat)) :
    ∃ c text, Utf16.ofUnits (some unit :: units) = c :: text ∧
      ((byte? c).any isNarrow = true → c = Utf16.single unit ∧ text = Utf16.ofUnits units) := by
  rcases units with _ | ⟨_ | next, units⟩
  · exact ⟨_, _, rfl, fun _ => ⟨rfl, rfl⟩⟩
  · have step : Utf16.ofUnits (some unit :: none :: units) =
        if Utf16.isLeading unit then '\uFFFD' :: Utf16.ofUnits units
        else Utf16.single unit :: Utf16.ofUnits (none :: units) := by
      rw [Utf16.ofUnits.eq_def]
    by_cases leads : Utf16.isLeading unit = true
    · exact ⟨_, _, step.trans (if_pos leads), fun narrow => absurd narrow (by decide)⟩
    · exact ⟨_, _, step.trans (if_neg leads), fun _ => ⟨rfl, rfl⟩⟩
  · by_cases paired : (Utf16.isLeading unit && Utf16.isTrailing next) = true
    · obtain ⟨first, second⟩ := Bool.and_eq_true_iff.mp paired
      refine ⟨_, _, by rw [Utf16.ofUnits, if_pos paired], fun narrow => ?_⟩
      rw [not_isNarrow_pair first second] at narrow
      cases narrow
    · exact ⟨_, _, by rw [Utf16.ofUnits, if_neg paired], fun _ => ⟨rfl, rfl⟩⟩

/-- In UTF-16, each of the first characters with one of the three numbers takes two such bytes. -/
theorem double_decode_utf16 (order : Utf16.ByteOrder) (bytes : Bytes) :
    2 * ((Utf16.decode order bytes).takeWhile fun c => (byte? c).any isNarrow).length ≤
      (bytes.takeWhile isNarrow).length := by
  rw [Utf16.decode]
  fun_induction Utf16.units order bytes with
  | case1 => exact Nat.le_refl 0
  | case2 byte =>
      have unwritten : (byte? '\uFFFD').any isNarrow = false := by decide
      rw [Utf16.ofUnits, List.takeWhile_cons, unwritten]
      exact Nat.zero_le _
  | case3 b₀ b₁ rest unit ih =>
      have below₀ := b₀.toNat_lt
      have below₁ := b₁.toNat_lt
      have number : unit = b₁.toNat * 256 + b₀.toNat ∨ unit = b₀.toNat * 256 + b₁.toNat := by
        cases order
        · exact Or.inl rfl
        · exact Or.inr rfl
      obtain ⟨c, text, first, narrow⟩ := ofUnits_cons unit (Utf16.units order rest)
      rw [first, List.takeWhile_cons]
      cases counted : (byte? c).any isNarrow with
      | false => exact Nat.zero_le _
      | true =>
          obtain ⟨rfl, rfl⟩ := narrow counted
          have small := eq_of_isNarrow_single (by omega) counted
          have both : isNarrow b₀ = true ∧ isNarrow b₁ = true := by
            simp only [isNarrow, Bool.or_eq_true, beq_iff_eq, ← UInt8.toNat_inj,
              UInt8.reduceToNat]
            omega
          simp only [List.takeWhile_cons, both.1, both.2, if_true, List.length_cons]
          omega

/-- The byte order marks. -/
def marks : List Bytes :=
  [[0xEF, 0xBB, 0xBF], [0xFF, 0xFE], [0xFE, 0xFF]]

/-- Whether bytes start with a byte order mark. -/
def isMarked (bytes : Bytes) : Bool :=
  marks.any fun mark => mark.isPrefixOf bytes

/-- Bytes are marked when they start with the mark of UTF-8 or one of those of UTF-16. -/
theorem isMarked_iff {bytes : Bytes} :
    isMarked bytes = true ↔
      (∃ rest, bytes = 0xEF :: 0xBB :: 0xBF :: rest) ∨ (∃ rest, bytes = 0xFF :: 0xFE :: rest) ∨
        ∃ rest, bytes = 0xFE :: 0xFF :: rest := by
  simp only [isMarked, marks, List.any_cons, List.any_nil, Bool.or_false, Bool.or_eq_true,
    List.isPrefixOf_iff_prefix, List.prefix_iff_exists_eq_append, List.cons_append,
    List.nil_append]

/-- Bytes without a mark are decoded as they are. -/
theorem sniff_of_not_isMarked {bytes : Bytes} (unmarked : isMarked bytes = false) :
    sniff bytes = decode bytes := by
  have none := mt isMarked_iff.mpr (Bool.eq_false_iff.mp unmarked)
  rw [sniff.eq_def]
  split
  · exact absurd (Or.inl ⟨_, rfl⟩) none
  · exact absurd (Or.inr (Or.inl ⟨_, rfl⟩)) none
  · exact absurd (Or.inr (Or.inr ⟨_, rfl⟩)) none
  · rfl

/-- **Marks are lost.** What is read in the encoding that a mark names is not written back. -/
theorem encode_sniff_ne {bytes : Bytes} (marked : isMarked bytes = true) :
    encode (sniff bytes) ≠ bytes := by
  rcases isMarked_iff.mp marked with ⟨rest, rfl⟩ | ⟨rest, rfl⟩ | ⟨rest, rfl⟩
  · exact encode_ne_of_takeWhile [0xEF, 0xBB, 0xBF] (by decide) (by decide) (by decide)
      (double_decode_utf8 rest)
  · exact encode_ne_of_takeWhile [0xFF, 0xFE] (by decide) (by decide) (by decide)
      (double_decode_utf16 .littleEndian rest)
  · exact encode_ne_of_takeWhile [0xFE, 0xFF] (by decide) (by decide) (by decide)
      (double_decode_utf16 .bigEndian rest)

end Marks

end Windows1252

end RoutineScripts
