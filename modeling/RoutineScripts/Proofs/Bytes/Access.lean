import RoutineScripts.Proofs.Encoding.Utf8
import RoutineScripts.Proofs.Encoding.Windows1252
import RoutineScripts.Proofs.Text.Offset

/-!
# Accesses by bytes

A text can be read through its bytes in UTF-8: the byte at an index, the part between two byte
offsets. Such an access fails at an index past the end, and at a slice whose ends are out of order,
past the end or inside a character. A *checked* reading makes its accesses in `Checked`, where the
first one that fails ends the reading with an `AccessFault`. So a checked reading with a result
`.ok` made no access that fails.

A slice exists exactly between the ends of two fronts (`Checked.slice_eq_ok_iff`). No byte of a
character outside ASCII is one of ASCII, so a test for ASCII characters sees through the bytes what
it would see of the characters (`Text.any_byte?`).

The sums of offsets in checked readings are exact. They add an offset within a text and the length
of a delimiter or another offset within it, so they fit into a machine word with the text itself.
Only the offset that a reading is called with may be any machine number. Where it is increased
before it is compared with the length of the text, this is checked as well (`Checked.succ`).
-/

namespace RoutineScripts

/-- How an operation on machine data fails: a byte index past the end, a slice that does not exist,
a difference below zero, a sum above the largest machine number. -/
inductive AccessFault
  | index
  | slice
  | underflow
  | overflow
  deriving DecidableEq, Repr

/-- The result of a reading whose operations may fail. -/
abbrev Checked := Except AccessFault

/-- The byte of an ASCII character. -/
def byteOf (c : Char) : UInt8 :=
  UInt8.ofNat c.toNat

/-- Whether a byte is an ASCII character that passes a test. -/
def onByte (test : Char → Bool) (byte : UInt8) : Bool :=
  byte < 0x80 && test (Char.ofNat byte.toNat)

/-- A test that only ASCII characters pass. -/
def OnAscii (test : Char → Bool) : Prop :=
  ∀ c, test c = true → c.toNat < 0x80

/-- The byte of an ASCII character has its number. -/
theorem toNat_byteOf {c : Char} (ascii : c.toNat < 0x80) : (byteOf c).toNat = c.toNat :=
  UInt8.toNat_ofNat_of_lt' (Nat.lt_trans ascii (by decide))

/-- ASCII characters with the same byte are the same. -/
theorem byteOf_eq_iff {c d : Char} (ascii : c.toNat < 0x80) (asciiToo : d.toNat < 0x80) :
    byteOf c = byteOf d ↔ c = d := by
  rw [← UInt8.toNat_inj, toNat_byteOf ascii, toNat_byteOf asciiToo, Char.toNat_inj]

/-- A test reads an ASCII character from its byte. -/
theorem onByte_byteOf {c : Char} (ascii : c.toNat < 0x80) (test : Char → Bool) :
    onByte test (byteOf c) = test c := by
  have small : byteOf c < 0x80 := by
    rw [UInt8.lt_iff_toNat_lt, toNat_byteOf ascii]
    exact ascii
  rw [onByte, decide_eq_true small, Bool.true_and, toNat_byteOf ascii, Char.ofNat_toNat]

/-- No test on ASCII characters passes a byte outside ASCII. -/
theorem onByte_of_le {byte : UInt8} (upper : 0x80 ≤ byte.toNat) (test : Char → Bool) :
    onByte test byte = false := by
  have large : ¬ byte < 0x80 := by
    rw [UInt8.lt_iff_toNat_lt]
    exact Nat.not_lt.mpr upper
  rw [onByte, decide_eq_false large, Bool.false_and]

/-- A byte outside ASCII is that of no ASCII character. -/
theorem ne_byteOf_of_le {byte : UInt8} (upper : 0x80 ≤ byte.toNat) {c : Char}
    (ascii : c.toNat < 0x80) : byte ≠ byteOf c := by
  intro same
  rw [same, toNat_byteOf ascii] at upper
  exact Nat.not_le.mpr ascii upper

namespace Text

/-- The byte of a text at an index, if there is one. -/
def byte? (text : Text) (index : Nat) : Option UInt8 :=
  (Utf8.encode text)[index]?

/-- There is no byte from the length of a text on. -/
theorem byte?_eq_none_iff {text : Text} {index : Nat} :
    text.byte? index = none ↔ text.byteLength ≤ index := by
  rw [byte?, List.getElem?_eq_none_iff, Utf8.length_encode]

/-- A byte stands before the length of its text. -/
theorem lt_byteLength_of_byte? {text : Text} {index : Nat} {byte : UInt8}
    (found : text.byte? index = some byte) : index < text.byteLength := by
  refine Nat.lt_of_not_le fun past => ?_
  rw [byte?_eq_none_iff.mpr past] at found
  cases found

/-- Past the front of a text, the bytes are those of the rest. -/
theorem byte?_append (front back : Text) (inner : Nat) :
    (front ++ back).byte? (front.byteLength + inner) = back.byte? inner := by
  rw [byte?, Utf8.encode_append, ← Utf8.length_encode, List.getElem?_append_right (by omega),
    Nat.add_sub_cancel_left]
  rfl

/-- The front of a text is shorter than a text that goes on. -/
theorem byteLength_lt_append (front : Text) (c : Char) (back : Text) :
    front.byteLength < (front ++ c :: back).byteLength := by
  have positive := c.utf8Size_pos
  rw [byteLength_append, byteLength_cons]
  omega

/-- An index within a text belongs to one of its characters. -/
theorem exists_char_of_lt {text : Text} {index : Nat} (within : index < text.byteLength) :
    ∃ (front : Text) (c : Char) (back : Text) (inner : Nat),
      text = front ++ c :: back ∧ inner < c.utf8Size ∧ index = front.byteLength + inner := by
  induction text generalizing index with
  | nil => exact absurd within (Nat.not_lt_zero _)
  | cons c rest ih =>
      by_cases here : index < c.utf8Size
      · exact ⟨[], c, rest, index, rfl, here, (Nat.zero_add index).symm⟩
      · rw [byteLength_cons] at within
        obtain ⟨front, d, back, inner, rfl, short, place⟩ :=
          @ih (index - c.utf8Size) (by omega)
        refine ⟨c :: front, d, back, inner, rfl, short, ?_⟩
        rw [byteLength_cons]
        omega

/-- The bytes of a character stand from its offset on. -/
theorem byte?_char (front : Text) {c : Char} (back : Text) {inner : Nat}
    (short : inner < c.utf8Size) :
    (front ++ c :: back).byte? (front.byteLength + inner) =
      (String.utf8EncodeChar c)[inner]? := by
  have size : inner < (String.utf8EncodeChar c).length := by
    rwa [String.length_utf8EncodeChar]
  rw [byte?_append, byte?, Utf8.encode, List.flatMap_cons, List.getElem?_append_left size]

/-- An ASCII character is written as one byte. -/
theorem utf8EncodeChar_of_lt {c : Char} (ascii : c.toNat < 0x80) :
    String.utf8EncodeChar c = [byteOf c] := by
  rw [String.utf8EncodeChar]
  exact if_pos (Nat.le_of_lt_succ ascii)

/-- An ASCII character takes one byte. -/
theorem utf8Size_of_lt {c : Char} (ascii : c.toNat < 0x80) : c.utf8Size = 1 := by
  rw [← String.length_utf8EncodeChar, utf8EncodeChar_of_lt ascii, List.length_singleton]

/-- An ASCII character adds one byte to a text. -/
theorem byteLength_concat {c : Char} (ascii : c.toNat < 0x80) (front : Text) :
    (front ++ [c]).byteLength = front.byteLength + 1 := by
  rw [byteLength_append, byteLength_cons, byteLength_nil, utf8Size_of_lt ascii]

/-- An ASCII character is its own byte at its offset. -/
theorem byte?_ascii (front : Text) {c : Char} (ascii : c.toNat < 0x80) (back : Text) :
    (front ++ c :: back).byte? front.byteLength = some (byteOf c) := by
  have found := byte?_char front back c.utf8Size_pos
  rwa [utf8EncodeChar_of_lt ascii] at found

/-- A text in ASCII has as many bytes as characters. -/
theorem byteLength_of_ascii {text : Text} (ascii : ∀ c ∈ text, c.toNat < 0x80) :
    text.byteLength = text.length := by
  induction text with
  | nil => rfl
  | cons c text ih =>
      obtain ⟨here, later⟩ := List.forall_mem_cons.mp ascii
      rw [byteLength_cons, utf8Size_of_lt here, ih later, List.length_cons, Nat.add_comm]

/-- A byte outside ASCII stands at an index. -/
def UpperAt (text : Text) (index : Nat) : Prop :=
  ∃ byte, text.byte? index = some byte ∧ 0x80 ≤ byte.toNat

/-- All bytes of a character outside ASCII are outside ASCII. -/
theorem upperAt_char (front : Text) {c : Char} (upper : 0x80 ≤ c.toNat) (back : Text)
    {inner : Nat} (short : inner < c.utf8Size) :
    (front ++ c :: back).UpperAt (front.byteLength + inner) := by
  have size : inner < (String.utf8EncodeChar c).length := by
    rwa [String.length_utf8EncodeChar]
  refine ⟨(String.utf8EncodeChar c)[inner], ?_, ?_⟩
  · rw [byte?_char front back short, List.getElem?_eq_getElem size]
  · have high := (Windows1252.isUpper_of_mem_utf8EncodeChar upper).2 _ (List.getElem_mem size)
    rwa [Windows1252.isUpper, decide_eq_true_iff, UInt8.le_iff_toNat_le] at high

/-- The bytes of a character after the first one are outside ASCII, whichever character it is. -/
theorem upperAt_inside (front : Text) (c : Char) (back : Text) {index : Nat}
    (lower : front.byteLength < index) (bound : index < front.byteLength + c.utf8Size) :
    (front ++ c :: back).UpperAt index := by
  have upper : 0x80 ≤ c.toNat := by
    refine Nat.not_lt.mp fun ascii => ?_
    rw [utf8Size_of_lt ascii] at bound
    omega
  obtain ⟨inner, rfl⟩ := Nat.exists_eq_add_of_le (Nat.le_of_lt lower)
  exact upperAt_char front upper back (by omega)

/-- The bytes that are left of a character that an offset cuts are outside ASCII. -/
theorem upperAt_of_cut {text rest : Text} {start cut index : Nat}
    (left : text.dropBytes start = (cut, rest)) (lower : start ≤ index)
    (bound : index < start + cut) : text.UpperAt index := by
  rcases dropBytes_cases left with ⟨none, _⟩ | ⟨none, _⟩ | ⟨_, front, c, rfl, before, size⟩
  · omega
  · omega
  · exact upperAt_inside front c rest (Nat.lt_of_lt_of_le before lower) (size ▸ bound)

/-- **The bytes of a text.** A byte is an ASCII character that starts there, or it is none of ASCII
and no ASCII character starts there. -/
theorem byte?_cases {text : Text} {index : Nat} {byte : UInt8}
    (found : text.byte? index = some byte) :
    (∃ c, text.charAt? index = some c ∧ c.toNat < 0x80 ∧ byte = byteOf c) ∨
      0x80 ≤ byte.toNat ∧ ∀ c, text.charAt? index = some c → 0x80 ≤ c.toNat := by
  obtain ⟨front, c, back, inner, rfl, short, rfl⟩ :=
    exists_char_of_lt (lt_byteLength_of_byte? found)
  by_cases ascii : c.toNat < 0x80
  · have first : inner = 0 := by
      rw [utf8Size_of_lt ascii] at short
      omega
    subst first
    rw [Nat.add_zero, byte?_ascii front ascii back] at found
    exact Or.inl ⟨c, charAt?_append front _, ascii, (Option.some.inj found).symm⟩
  · have upper : 0x80 ≤ c.toNat := Nat.not_lt.mp ascii
    obtain ⟨other, same, high⟩ := upperAt_char front upper back short
    obtain rfl : other = byte := Option.some.inj (same.symm.trans found)
    refine Or.inr ⟨high, fun d stands => ?_⟩
    rcases Nat.eq_zero_or_pos inner with rfl | positive
    · rw [Nat.add_zero, charAt?_append] at stands
      exact Option.some.inj stands ▸ upper
    · rw [charAt?_inside front back positive short] at stands
      cases stands

/-- There is no character from the length of a text on. -/
theorem charAt?_eq_none {text : Text} {index : Nat} (past : text.byteLength ≤ index) :
    text.charAt? index = none := by
  unfold charAt?
  split
  case h_1 before rest split =>
    obtain ⟨rfl, rfl⟩ := splitAtByte?_eq_some_iff.mp split
    rw [byteLength_append] at past
    cases rest with
    | nil => rfl
    | cons c rest =>
        have positive := c.utf8Size_pos
        rw [byteLength_cons] at past
        omega
  case h_2 => rfl

/-- **A test for ASCII sees the same through bytes.** -/
theorem any_byte? {test : Char → Bool} (onAscii : OnAscii test) (text : Text) (index : Nat) :
    (text.byte? index).any (onByte test) = (text.charAt? index).any test := by
  cases found : text.byte? index with
  | none => rw [charAt?_eq_none (byte?_eq_none_iff.mp found)]; rfl
  | some byte =>
      rcases byte?_cases found with ⟨c, stands, ascii, rfl⟩ | ⟨upper, others⟩
      · rw [stands, Option.any_some, Option.any_some, onByte_byteOf ascii]
      · rw [Option.any_some, onByte_of_le upper]
        symm
        rw [Bool.eq_false_iff]
        intro passes
        obtain ⟨c, stands, passed⟩ := (Option.any_eq_true test _).mp passes
        exact Nat.not_lt.mpr (others c stands) (onAscii c passed)

/-- The byte of an ASCII character stands exactly where the character does. -/
theorem byte?_eq_some_byteOf_iff {text : Text} {index : Nat} {c : Char} (ascii : c.toNat < 0x80) :
    text.byte? index = some (byteOf c) ↔ text.charAt? index = some c := by
  constructor
  · intro found
    rcases byte?_cases found with ⟨d, stands, asciiToo, same⟩ | ⟨upper, _⟩
    · rwa [(byteOf_eq_iff ascii asciiToo).mp same]
    · exact absurd rfl (ne_byteOf_of_le upper ascii)
  · intro stands
    unfold charAt? at stands
    split at stands
    case h_1 before rest split =>
      obtain ⟨rfl, rfl⟩ := splitAtByte?_eq_some_iff.mp split
      obtain ⟨others, rfl⟩ := List.head?_eq_some_iff.mp stands
      exact byte?_ascii before ascii others
    case h_2 => cases stands

/-- Which ASCII character starts what is left of a text is seen from the byte there. -/
theorem byte?_head_iff (front back : Text) {text : Text} {index : Nat} {c : Char}
    (whole : text = front ++ back) (place : front.byteLength = index) (ascii : c.toNat < 0x80) :
    text.byte? index = some (byteOf c) ↔ back.head? = some c := by
  rw [byte?_eq_some_byteOf_iff ascii, whole, ← place, charAt?_append]

end Text

/-- An ASCII character is encoded as its byte. -/
theorem Utf8.encode_cons_of_ascii {c : Char} (ascii : c.toNat < 0x80) (text : Text) :
    encode (c :: text) = byteOf c :: encode text := by
  rw [encode, List.flatMap_cons, Text.utf8EncodeChar_of_lt ascii]
  rfl

/-- An ASCII text stands at the front of another one exactly where its bytes do. -/
theorem Utf8.isPrefixOf_encode {lead : Text} (ascii : ∀ c ∈ lead, c.toNat < 0x80) (text : Text) :
    (encode lead).isPrefixOf (encode text) = lead.isPrefixOf text := by
  rw [Bool.eq_iff_iff, List.isPrefixOf_iff_prefix, List.isPrefixOf_iff_prefix]
  constructor
  · intro leads
    induction lead generalizing text with
    | nil => exact List.nil_prefix
    | cons a lead ih =>
        obtain ⟨here, later⟩ := List.forall_mem_cons.mp ascii
        obtain ⟨more, shape⟩ := leads
        rw [encode_cons_of_ascii here, List.cons_append] at shape
        have first : text.byte? 0 = some (byteOf a) := by
          rw [Text.byte?, ← shape]
          rfl
        have starts : text.head? = some a :=
          (Text.byte?_head_iff [] text rfl rfl here).mp first
        obtain ⟨rest, rfl⟩ := List.head?_eq_some_iff.mp starts
        rw [encode_cons_of_ascii here] at shape
        exact List.cons_prefix_cons.mpr ⟨rfl, ih later rest ⟨more, (List.cons.inj shape).2⟩⟩
  · intro ⟨more, shape⟩
    rw [← shape, encode_append]
    exact List.prefix_append _ _

namespace Checked

/-- A computation that has a value goes on with it. -/
theorem ok_bind {α β : Type} (value : α) (next : α → Checked β) :
    (Except.ok value >>= next) = next value := rfl

/-- The byte at an index. -/
def byteAt (text : Text) (index : Nat) : Checked UInt8 :=
  match text.byte? index with
  | some byte => .ok byte
  | none => .error .index

/-- The part of a text between two byte offsets. -/
def slice (text : Text) (start stop : Nat) : Checked Text :=
  match text.splitAtByte? stop with
  | none => .error .slice
  | some (front, _) =>
      match front.splitAtByte? start with
      | none => .error .slice
      | some (_, part) => .ok part

/-- The part of a text from a byte offset on. -/
def sliceFrom (text : Text) (start : Nat) : Checked Text :=
  slice text start text.byteLength

/-- The part of a text before a byte offset. -/
def sliceTo (text : Text) (stop : Nat) : Checked Text :=
  slice text 0 stop

/-- The bytes of a text from an index on. -/
def bytesFrom (text : Text) (start : Nat) : Checked Bytes :=
  if start ≤ text.byteLength then .ok ((Utf8.encode text).drop start) else .error .slice

/-- The bytes of a text before an index. -/
def bytesTo (text : Text) (stop : Nat) : Checked Bytes :=
  if stop ≤ text.byteLength then .ok ((Utf8.encode text).take stop) else .error .slice

/-- The difference of two machine numbers. -/
def minus (first second : Nat) : Checked Nat :=
  if second ≤ first then .ok (first - second) else .error .underflow

/-- The largest machine number. -/
def largest : Nat := UInt64.size - 1

/-- The machine number after another one. -/
def succ (n : Nat) : Checked Nat :=
  if n < largest then .ok (n + 1) else .error .overflow

/-- **Slices.** There is a slice exactly where a front ends at its start and a longer one at its
end. -/
theorem slice_eq_ok_iff {text part : Text} {start stop : Nat} :
    slice text start stop = .ok part ↔
      ∃ before after, text = before ++ part ++ after ∧ before.byteLength = start ∧
        (before ++ part).byteLength = stop := by
  constructor
  · intro found
    unfold slice at found
    split at found
    case h_1 => cases found
    case h_2 front after last =>
      split at found
      case h_1 => cases found
      case h_2 before inner first =>
        cases found
        obtain ⟨rfl, rfl⟩ := Text.splitAtByte?_eq_some_iff.mp last
        obtain ⟨rfl, rfl⟩ := Text.splitAtByte?_eq_some_iff.mp first
        exact ⟨before, after, rfl, rfl, rfl⟩
  · intro ⟨before, after, whole, first, last⟩
    have outer := Text.splitAtByte?_append (before ++ part) after
    have inner := Text.splitAtByte?_append before part
    rw [← whole, last] at outer
    rw [first] at inner
    rw [slice, outer]
    simp only [inner]

/-- The slice between two boundaries is what stands there. -/
theorem slice_eq (before after : Text) {text part : Text} {start stop : Nat}
    (whole : text = before ++ part ++ after) (first : before.byteLength = start)
    (last : start + part.byteLength = stop) : slice text start stop = .ok part :=
  slice_eq_ok_iff.mpr ⟨before, after, whole, first, by rw [Text.byteLength_append, first, last]⟩

/-- The slice from a boundary on is what follows it. -/
theorem sliceFrom_append (before after : Text) :
    sliceFrom (before ++ after) before.byteLength = .ok after :=
  slice_eq_ok_iff.mpr ⟨before, [], (List.append_nil _).symm, rfl, rfl⟩

/-- The slice up to a boundary is what precedes it. -/
theorem sliceTo_append (before after : Text) :
    sliceTo (before ++ after) before.byteLength = .ok before :=
  slice_eq_ok_iff.mpr ⟨[], after, rfl, rfl, rfl⟩

/-- A byte that is there is read without a fault. -/
theorem byteAt_of_byte? {text : Text} {index : Nat} {byte : UInt8}
    (found : text.byte? index = some byte) : byteAt text index = .ok byte := by
  rw [byteAt, found]

/-- There is a byte at each index within a text. -/
theorem exists_byte_of_lt {text : Text} {index : Nat} (within : index < text.byteLength) :
    ∃ byte, text.byte? index = some byte ∧ byteAt text index = .ok byte := by
  cases found : text.byte? index with
  | none => exact absurd (Text.byte?_eq_none_iff.mp found) (Nat.not_le.mpr within)
  | some byte => exact ⟨byte, rfl, byteAt_of_byte? found⟩

/-- The bytes from a boundary on are those of what follows it. -/
theorem bytesFrom_append (before after : Text) :
    bytesFrom (before ++ after) before.byteLength = .ok (Utf8.encode after) := by
  rw [bytesFrom, if_pos (by rw [Text.byteLength_append]; omega), Utf8.encode_append,
    ← Utf8.length_encode, List.drop_left]

/-- A difference that is not negative is computed without a fault. -/
theorem minus_add (first second : Nat) : minus (first + second) first = .ok second := by
  rw [minus, if_pos (Nat.le_add_right first second), Nat.add_sub_cancel_left]

/-- A number below the largest one has a successor. -/
theorem succ_of_lt {n : Nat} (below : n < largest) : succ n = .ok (n + 1) :=
  if_pos below

end Checked

end RoutineScripts
