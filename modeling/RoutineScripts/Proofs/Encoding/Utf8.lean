import RoutineScripts.Encoding.Utf8

/-!
# Reading UTF-8 back

Each character is read back from its bytes, whatever follows them (`Utf8.first_encode`): the ranges
of the second byte leave out overlong forms and surrogates only. So every text is read back from its
bytes (`Utf8.decode?_encode`), and no two texts have the same ones.

Conversely, the bytes that are read as a character are the ones it is written as
(`Utf8.starts_of_first`), so well-formed bytes are those of the text that is read from them
(`Utf8.encode_of_decode?`).
-/

namespace RoutineScripts

namespace Utf8

/-- Two texts are encoded one after the other. -/
theorem encode_append (front back : Text) : encode (front ++ back) = encode front ++ encode back :=
  List.flatMap_append

/-- A text is encoded as as many bytes as it takes. -/
theorem length_encode (text : Text) : (encode text).length = text.byteLength := by
  induction text with
  | nil => rfl
  | cons c text ih =>
      rw [encode, List.flatMap_cons, List.length_append, String.length_utf8EncodeChar,
        Text.byteLength_cons, ← ih]
      rfl

/-- A byte is within bounds when its number is. -/
theorem within_eq_true_iff {low high byte : UInt8} :
    within low high byte = true ↔ low.toNat ≤ byte.toNat ∧ byte.toNat ≤ high.toNat := by
  rw [within, Bool.and_eq_true, decide_eq_true_iff, decide_eq_true_iff, UInt8.le_iff_toNat_le,
    UInt8.le_iff_toNat_le]

/-- One byte that continues a character. -/
theorem continued_cons {count value n : Nat} {low high : UInt8} {rest : Bytes} (small : n < 256)
    (above : low.toNat ≤ n) (below : n ≤ high.toNat) :
    continued (count + 1) low high value (UInt8.ofNat n :: rest) =
      ((continued count 0x80 0xBF (value * 64 + n % 64) rest).1,
        (continued count 0x80 0xBF (value * 64 + n % 64) rest).2 + 1) := by
  have inside : within low high (UInt8.ofNat n) = true := by
    rw [within_eq_true_iff, UInt8.toNat_ofNat_of_lt' small]
    exact ⟨above, below⟩
  rw [continued, if_pos inside, payload, UInt8.toNat_ofNat_of_lt' small]

/-- The range of the second byte after a first byte, and the number of bytes that follow it. -/
theorem first_ofNat {n : Nat} (small : n < 256) (rest : Bytes) :
    first (UInt8.ofNat n) rest =
      if n < 0x80 then (some (Char.ofNat n), 0)
      else if 0xC2 ≤ n ∧ n ≤ 0xDF then continued 1 0x80 0xBF (n - 0xC0) rest
      else if n = 0xE0 then continued 2 0xA0 0xBF (n - 0xE0) rest
      else if n = 0xED then continued 2 0x80 0x9F (n - 0xE0) rest
      else if 0xE1 ≤ n ∧ n ≤ 0xEF then continued 2 0x80 0xBF (n - 0xE0) rest
      else if n = 0xF0 then continued 3 0x90 0xBF (n - 0xF0) rest
      else if 0xF1 ≤ n ∧ n ≤ 0xF3 then continued 3 0x80 0xBF (n - 0xF0) rest
      else if n = 0xF4 then continued 3 0x80 0x8F (n - 0xF0) rest
      else (none, 0) := by
  simp only [first, within_eq_true_iff, beq_iff_eq, ← UInt8.toNat_inj,
    UInt8.toNat_ofNat_of_lt' small]
  rfl

section Tails

variable {v value : Nat} {low high : UInt8} {rest : Bytes}

/-- The last byte of a character. -/
theorem continued_one (above : low.toNat ≤ v % 64 + 128) (below : v % 64 + 128 ≤ high.toNat) :
    continued 1 low high value (UInt8.ofNat (v % 64 + 128) :: rest) =
      (some (Char.ofNat (value * 64 + v % 64)), 1) := by
  have payload : (v % 64 + 128) % 64 = v % 64 := by omega
  rw [continued_cons (by omega) above below, continued, payload]

/-- The last two bytes of a character. -/
theorem continued_two (above : low.toNat ≤ v / 64 % 64 + 128)
    (below : v / 64 % 64 + 128 ≤ high.toNat) :
    continued 2 low high value
        (UInt8.ofNat (v / 64 % 64 + 128) :: UInt8.ofNat (v % 64 + 128) :: rest) =
      (some (Char.ofNat (value * 4096 + v % 4096)), 2) := by
  have last : 0x80 ≤ v % 64 + 128 ∧ v % 64 + 128 ≤ 0xBF := by omega
  rw [continued_cons (by omega) above below, continued_one last.1 last.2]
  have whole : (value * 64 + (v / 64 % 64 + 128) % 64) * 64 + v % 64 = value * 4096 + v % 4096 := by
    omega
  rw [whole]

/-- The last three bytes of a character. -/
theorem continued_three (above : low.toNat ≤ v / 4096 % 64 + 128)
    (below : v / 4096 % 64 + 128 ≤ high.toNat) :
    continued 3 low high value
        (UInt8.ofNat (v / 4096 % 64 + 128) :: UInt8.ofNat (v / 64 % 64 + 128) ::
          UInt8.ofNat (v % 64 + 128) :: rest) =
      (some (Char.ofNat (value * 262144 + v % 262144)), 3) := by
  have next : 0x80 ≤ v / 64 % 64 + 128 ∧ v / 64 % 64 + 128 ≤ 0xBF := by omega
  rw [continued_cons (by omega) above below, continued_two next.1 next.2]
  have whole : (value * 64 + (v / 4096 % 64 + 128) % 64) * 4096 + v % 4096 =
      value * 262144 + v % 262144 := by omega
  rw [whole]

/-- A byte of ASCII is read as its character. -/
theorem first_of_one (one : v ≤ 0x7F) :
    first (UInt8.ofNat v) rest = (some (Char.ofNat v), 0) := by
  rw [first_ofNat (by omega), if_pos (by omega)]

/-- The bytes of a number below `0x800` are read as its character. -/
theorem first_of_two (long : 0x7F < v) (two : v ≤ 0x7FF) :
    first (UInt8.ofNat (v / 64 % 32 + 192)) (UInt8.ofNat (v % 64 + 128) :: rest) =
      (some (Char.ofNat v), 1) := by
  have second : 0x80 ≤ v % 64 + 128 ∧ v % 64 + 128 ≤ 0xBF := by omega
  have whole : (v / 64 % 32 + 192 - 0xC0) * 64 + v % 64 = v := by omega
  rw [first_ofNat (by omega), if_neg (by omega), if_pos (by omega),
    continued_one second.1 second.2, whole]

/-- The first bytes E0 and ED narrow the second byte, which keeps overlong forms and surrogates
out. -/
theorem first_of_three (long : 0x7FF < v) (three : v ≤ 0xFFFF)
    (valid : v < 0xD800 ∨ 0xDFFF < v) :
    first (UInt8.ofNat (v / 4096 % 16 + 224))
        (UInt8.ofNat (v / 64 % 64 + 128) :: UInt8.ofNat (v % 64 + 128) :: rest) =
      (some (Char.ofNat v), 2) := by
  have whole : (v / 4096 % 16 + 224 - 0xE0) * 4096 + v % 4096 = v := by omega
  rw [first_ofNat (by omega), if_neg (by omega), if_neg (by omega)]
  split
  case isTrue =>
    have second : 0xA0 ≤ v / 64 % 64 + 128 ∧ v / 64 % 64 + 128 ≤ 0xBF := by omega
    rw [continued_two second.1 second.2, whole]
  case isFalse =>
    split
    case isTrue =>
      have second : 0x80 ≤ v / 64 % 64 + 128 ∧ v / 64 % 64 + 128 ≤ 0x9F := by omega
      rw [continued_two second.1 second.2, whole]
    case isFalse =>
      have second : 0x80 ≤ v / 64 % 64 + 128 ∧ v / 64 % 64 + 128 ≤ 0xBF := by omega
      rw [if_pos (by omega), continued_two second.1 second.2, whole]

/-- The first bytes F0 and F4 narrow the second byte, which keeps out overlong forms and what is
past the last code point. -/
theorem first_of_four (long : 0xFFFF < v) (valid : v < 0x110000) :
    first (UInt8.ofNat (v / 262144 % 8 + 240))
        (UInt8.ofNat (v / 4096 % 64 + 128) :: UInt8.ofNat (v / 64 % 64 + 128) ::
          UInt8.ofNat (v % 64 + 128) :: rest) =
      (some (Char.ofNat v), 3) := by
  have whole : (v / 262144 % 8 + 240 - 0xF0) * 262144 + v % 262144 = v := by omega
  rw [first_ofNat (by omega), if_neg (by omega), if_neg (by omega), if_neg (by omega),
    if_neg (by omega), if_neg (by omega)]
  split
  case isTrue =>
    have second : 0x90 ≤ v / 4096 % 64 + 128 ∧ v / 4096 % 64 + 128 ≤ 0xBF := by omega
    rw [continued_three second.1 second.2, whole]
  case isFalse =>
    split
    case isTrue =>
      have second : 0x80 ≤ v / 4096 % 64 + 128 ∧ v / 4096 % 64 + 128 ≤ 0xBF := by omega
      rw [continued_three second.1 second.2, whole]
    case isFalse =>
      have second : 0x80 ≤ v / 4096 % 64 + 128 ∧ v / 4096 % 64 + 128 ≤ 0x8F := by omega
      rw [if_pos (by omega), continued_three second.1 second.2, whole]

end Tails

/-- **Characters are read back.** -/
theorem first_encode (c : Char) (rest : Bytes) :
    ∃ byte others, String.utf8EncodeChar c = byte :: others ∧
      first byte (others ++ rest) = (some c, others.length) := by
  have valid : c.toNat < 0xD800 ∨ 0xDFFF < c.toNat ∧ c.toNat < 0x110000 := c.valid
  have back : Char.ofNat c.toNat = c := Char.ofNat_toNat c
  rw [String.utf8EncodeChar]
  simp only [Char.toNat] at valid back ⊢
  generalize c.val.toNat = v at valid back ⊢
  subst back
  split
  case isTrue one => exact ⟨_, _, rfl, first_of_one one⟩
  case isFalse =>
    split
    case isTrue two => exact ⟨_, _, rfl, first_of_two (by omega) two⟩
    case isFalse =>
      split
      case isTrue three => exact ⟨_, _, rfl, first_of_three (by omega) three (by omega)⟩
      case isFalse => exact ⟨_, _, rfl, first_of_four (by omega) (by omega)⟩

/-- What was encoded is read without an error. -/
theorem read_encode (text : Text) : read (encode text) = text.map some := by
  induction text with
  | nil => exact read.eq_1
  | cons c text ih =>
      obtain ⟨byte, others, spelled, found⟩ := first_encode c (encode text)
      have bytes : encode (c :: text) = byte :: (others ++ encode text) := by
        rw [encode, List.flatMap_cons, spelled]
        rfl
      rw [bytes, read, found, List.drop_left, ih]
      rfl

/-- **Texts are read back.** -/
theorem decode?_encode (text : Text) : decode? (encode text) = some text := by
  rw [decode?, read_encode]
  induction text with
  | nil => rfl
  | cons c text ih => simp [List.mapM_cons, ih]

/-- Different texts are encoded differently. -/
theorem encode_injective : Function.Injective encode := by
  intro first second same
  have decoded := congrArg decode? same
  rw [decode?_encode, decode?_encode] at decoded
  exact Option.some.inj decoded

section WriteBack

variable {value n : Nat} {low high byte : UInt8} {rest : Bytes} {c : Char}

/-- A number that is that of a byte makes that byte. -/
theorem ofNat_eq_of_toNat (byte : UInt8) {v : Nat} (same : v = byte.toNat) :
    UInt8.ofNat v = byte := by
  rw [same, UInt8.ofNat_toNat]

/-- The character of a number that is no surrogate has that number. -/
theorem toNat_ofNat_of_valid {v : Nat} (valid : v < 0xD800 ∨ 0xDFFF < v ∧ v < 0x110000) :
    (Char.ofNat v).val.toNat = v := by
  rw [Char.ofNat, dif_pos (show v.isValidChar from valid)]
  rfl

/-- Reading one byte that continues a character. -/
theorem exists_of_continued_succ {count : Nat}
    (found : continued (count + 1) low high value rest = (some c, n)) :
    ∃ byte others m, rest = byte :: others ∧ low.toNat ≤ byte.toNat ∧ byte.toNat ≤ high.toNat ∧
      continued count 0x80 0xBF (value * 64 + byte.toNat % 64) others = (some c, m) ∧
      n = m + 1 := by
  cases rest with
  | nil => cases found
  | cons byte others =>
      rw [continued] at found
      split at found
      case isFalse => cases found
      case isTrue inside =>
        obtain ⟨above, below⟩ := within_eq_true_iff.mp inside
        obtain ⟨char, read⟩ := Prod.mk.inj found
        exact ⟨byte, others, _, rfl, above, below, Prod.ext char rfl, read.symm⟩

/-- Without continuation bytes, the number read so far is that of the character. -/
theorem eq_of_continued_zero (found : continued 0 low high value rest = (some c, n)) :
    c = Char.ofNat value ∧ n = 0 := by
  rw [continued] at found
  obtain ⟨char, read⟩ := Prod.mk.inj found
  exact ⟨(Option.some.inj char).symm, read.symm⟩

/-- The bytes `byte :: rest` start with the ones that `c` is written as, `n` of them in `rest`. -/
def Starts (byte : UInt8) (rest : Bytes) (c : Char) (n : Nat) : Prop :=
  ∃ others tail, rest = others ++ tail ∧ others.length = n ∧
    String.utf8EncodeChar c = byte :: others

/-- A byte of ASCII is the encoding of its character. -/
theorem starts_of_one (small : byte.toNat < 0x80) :
    Starts byte rest (Char.ofNat byte.toNat) 0 := by
  refine ⟨[], rest, rfl, rfl, ?_⟩
  rw [String.utf8EncodeChar]
  simp only [toNat_ofNat_of_valid (v := byte.toNat) (by omega)]
  rw [if_pos (by omega), UInt8.ofNat_toNat]

/-- Two bytes that are read as a character are its encoding. -/
theorem starts_of_two (above : 0xC2 ≤ byte.toNat) (below : byte.toNat ≤ 0xDF)
    (found : continued 1 0x80 0xBF (byte.toNat - 0xC0) rest = (some c, n)) :
    Starts byte rest c n := by
  obtain ⟨second, tail, _, rfl, lower, upper, ended, rfl⟩ := exists_of_continued_succ found
  obtain ⟨rfl, rfl⟩ := eq_of_continued_zero ended
  refine ⟨[second], tail, rfl, rfl, ?_⟩
  simp only [UInt8.reduceToNat] at lower upper
  rw [String.utf8EncodeChar]
  simp only [toNat_ofNat_of_valid (v := (byte.toNat - 0xC0) * 64 + second.toNat % 64) (by omega)]
  rw [if_neg (by omega), if_pos (by omega), ofNat_eq_of_toNat byte (by omega),
    ofNat_eq_of_toNat second (by omega)]

/-- `overlong` and `surrogates` are what the ranges of the second byte are for. -/
theorem starts_of_three (above : 0xE0 ≤ byte.toNat) (below : byte.toNat ≤ 0xEF)
    (lowest : 0x80 ≤ low.toNat) (highest : high.toNat ≤ 0xBF)
    (overlong : byte.toNat = 0xE0 → 0xA0 ≤ low.toNat)
    (surrogates : byte.toNat = 0xED → high.toNat ≤ 0x9F)
    (found : continued 2 low high (byte.toNat - 0xE0) rest = (some c, n)) :
    Starts byte rest c n := by
  obtain ⟨second, rest, _, rfl, lower, upper, next, rfl⟩ := exists_of_continued_succ found
  obtain ⟨third, tail, _, rfl, lowerThird, upperThird, ended, rfl⟩ := exists_of_continued_succ next
  obtain ⟨rfl, rfl⟩ := eq_of_continued_zero ended
  refine ⟨[second, third], tail, rfl, rfl, ?_⟩
  simp only [UInt8.reduceToNat] at lowerThird upperThird
  rw [String.utf8EncodeChar]
  simp only [toNat_ofNat_of_valid
    (v := ((byte.toNat - 0xE0) * 64 + second.toNat % 64) * 64 + third.toNat % 64) (by omega)]
  rw [if_neg (by omega), if_neg (by omega), if_pos (by omega),
    ofNat_eq_of_toNat byte (by omega), ofNat_eq_of_toNat second (by omega),
    ofNat_eq_of_toNat third (by omega)]

/-- Four bytes that are read as a character are its encoding. -/
theorem starts_of_four (above : 0xF0 ≤ byte.toNat) (below : byte.toNat ≤ 0xF4)
    (lowest : 0x80 ≤ low.toNat) (highest : high.toNat ≤ 0xBF)
    (overlong : byte.toNat = 0xF0 → 0x90 ≤ low.toNat)
    (last : byte.toNat = 0xF4 → high.toNat ≤ 0x8F)
    (found : continued 3 low high (byte.toNat - 0xF0) rest = (some c, n)) :
    Starts byte rest c n := by
  obtain ⟨second, rest, _, rfl, lower, upper, next, rfl⟩ := exists_of_continued_succ found
  obtain ⟨third, rest, _, rfl, lowerThird, upperThird, later, rfl⟩ := exists_of_continued_succ next
  obtain ⟨fourth, tail, _, rfl, lowerFourth, upperFourth, ended, rfl⟩ :=
    exists_of_continued_succ later
  obtain ⟨rfl, rfl⟩ := eq_of_continued_zero ended
  refine ⟨[second, third, fourth], tail, rfl, rfl, ?_⟩
  simp only [UInt8.reduceToNat] at lowerThird upperThird lowerFourth upperFourth
  rw [String.utf8EncodeChar]
  simp only [toNat_ofNat_of_valid
    (v := (((byte.toNat - 0xF0) * 64 + second.toNat % 64) * 64 + third.toNat % 64) * 64 +
      fourth.toNat % 64) (by omega)]
  rw [if_neg (by omega), if_neg (by omega), if_neg (by omega),
    ofNat_eq_of_toNat byte (by omega), ofNat_eq_of_toNat second (by omega),
    ofNat_eq_of_toNat third (by omega), ofNat_eq_of_toNat fourth (by omega)]

/-- **Characters are written back.** The bytes that are read as a character are the ones it is
written as. -/
theorem starts_of_first (found : first byte rest = (some c, n)) : Starts byte rest c n := by
  rw [← UInt8.ofNat_toNat (x := byte), first_ofNat byte.toNat_lt] at found
  split at found
  · cases found
    exact starts_of_one (by omega)
  split at found
  · exact starts_of_two (by omega) (by omega) found
  split at found
  · exact starts_of_three (by omega) (by omega) (by decide) (by decide) (fun _ => by decide)
      (fun other => by omega) found
  split at found
  · exact starts_of_three (by omega) (by omega) (by decide) (by decide) (fun other => by omega)
      (fun _ => by decide) found
  split at found
  · exact starts_of_three (by omega) (by omega) (by decide) (by decide) (fun other => by omega)
      (fun other => by omega) found
  split at found
  · exact starts_of_four (by omega) (by omega) (by decide) (by decide) (fun _ => by decide)
      (fun other => by omega) found
  split at found
  · exact starts_of_four (by omega) (by omega) (by decide) (by decide) (fun other => by omega)
      (fun other => by omega) found
  split at found
  · exact starts_of_four (by omega) (by omega) (by decide) (by decide) (fun other => by omega)
      (fun _ => by decide) found
  · cases found

/-- **Well-formed bytes are written back.** -/
theorem encode_of_decode? {bytes : Bytes} {text : Text} (decoded : decode? bytes = some text) :
    encode text = bytes := by
  rw [decode?] at decoded
  induction bytes using read.induct generalizing text with
  | case1 =>
      rw [read] at decoded
      cases decoded
      rfl
  | case2 byte rest ih =>
      rw [read, List.mapM_cons] at decoded
      obtain ⟨c, char, others⟩ := Option.bind_eq_some_iff.mp decoded
      obtain ⟨text, later, done⟩ := Option.bind_eq_some_iff.mp others
      cases done
      obtain ⟨others, tail, rfl, length, spelled⟩ :=
        starts_of_first (Prod.ext char rfl : first byte rest = (some c, (first byte rest).2))
      rw [← length, List.drop_left] at ih later
      have same : encode (c :: text) = String.utf8EncodeChar c ++ encode text := rfl
      rw [same, spelled, ih later, List.cons_append]

end WriteBack

end Utf8

end RoutineScripts
