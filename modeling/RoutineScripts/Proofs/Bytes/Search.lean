import RoutineScripts.Proofs.Bytes.Scan
import RoutineScripts.Proofs.Routine.Keyword

/-!
# Searches by bytes

The searches at top level run through the offsets of a scan and read the byte at each. Bytes outside
ASCII decide nothing there, so a search sees what it would see of the characters at top level, from
whatever offset it starts (`Checked.readThrough_topLevelPositions`).

This gives the search for one byte (`Checked.findTopLevel?_eq_find?`, `Checked.findTopLevel?_eq`),
the one for a closing parenthesis, whose depth is positive whenever it is decreased
(`Checked.parenSpan?_eq`), and the test whether an offset is at top level
(`Checked.isTopLevelAt_eq`).
-/

namespace RoutineScripts

namespace Glyph

/-- A glyph that a search by bytes reads: an ASCII character at top level. -/
def IsRead (glyph : Glyph) : Prop :=
  glyph.isTopLevel = true ∧ glyph.char.toNat < 0x80

instance (glyph : Glyph) : Decidable glyph.IsRead :=
  inferInstanceAs (Decidable (_ ∧ _))

/-- A glyph that is read has the byte of a target exactly when it is the target at top level. -/
theorem IsRead.byteOf_eq_iff {glyph : Glyph} (isRead : glyph.IsRead) {target : Char}
    (ascii : target.toNat < 0x80) :
    byteOf glyph.char = byteOf target ↔ glyph.isTopLevelChar target = true := by
  rw [RoutineScripts.byteOf_eq_iff isRead.2 ascii, isTopLevelChar, isRead.1, Bool.true_and,
    beq_iff_eq]

/-- A glyph that matches an ASCII target is read. -/
theorem isRead_of_isTopLevelChar {glyph : Glyph} {target : Char}
    (matched : glyph.isTopLevelChar target = true) (ascii : target.toNat < 0x80) :
    glyph.IsRead :=
  ⟨(Bool.and_eq_true_iff.mp matched).1, (char_of_isTopLevelChar matched).symm ▸ ascii⟩

end Glyph

namespace Checked

/-! ### Reading bytes in order -/

/-- Runs through indices and reads the byte at each, until a step has a result. -/
def readThrough {σ ρ : Type} (text : Text) (step : σ → Nat → UInt8 → Checked (σ ⊕ ρ)) :
    σ → List Nat → Checked (Option ρ)
  | _, [] => return none
  | state, index :: indices => do
      let byte ← byteAt text index
      match ← step state index byte with
      | .inl next => readThrough text step next indices
      | .inr result => return some result

/-- Runs through glyphs and reads each ASCII character at top level, until a step has a result. -/
def readGlyphs {σ ρ : Type} (step : σ → Nat → UInt8 → Checked (σ ⊕ ρ)) :
    σ → Nat → List Glyph → Checked (Option ρ)
  | _, _, [] => return none
  | state, offset, glyph :: glyphs =>
      if glyph.IsRead then do
        match ← step state offset (byteOf glyph.char) with
        | .inl next => readGlyphs step next (offset + glyph.char.utf8Size) glyphs
        | .inr result => return some result
      else readGlyphs step state (offset + glyph.char.utf8Size) glyphs

section Reading

variable {σ ρ : Type} {step : σ → Nat → UInt8 → Checked (σ ⊕ ρ)}

/-- Bytes outside ASCII leave the state of a search as it is. -/
def IgnoresUpper (step : σ → Nat → UInt8 → Checked (σ ⊕ ρ)) : Prop :=
  ∀ state index byte, 0x80 ≤ byte.toNat → step state index byte = .ok (.inl state)

/-- A search that ignores bytes outside ASCII passes over them. -/
theorem readThrough_upper (ignores : IgnoresUpper step) {text : Text} {places : List Nat}
    (upper : ∀ place ∈ places, text.UpperAt place) (state : σ) (others : List Nat) :
    readThrough text step state (places ++ others) = readThrough text step state others := by
  induction places with
  | nil => rfl
  | cons place places ih =>
      obtain ⟨⟨byte, found, high⟩, later⟩ := List.forall_mem_cons.mp upper
      rw [List.cons_append, readThrough, byteAt_of_byte? found, ok_bind, ignores _ _ _ high,
        ok_bind]
      exact ih later

/-- A search by bytes over the offsets at top level is one over the glyphs. -/
theorem readThrough_topLevelFrom (ignores : IgnoresUpper step) (front : Text)
    (glyphs : List Glyph) (state : σ) :
    readThrough (front ++ Text.ofGlyphs glyphs) step state
        (Glyph.topLevelFrom front.byteLength glyphs) =
      readGlyphs step state front.byteLength glyphs := by
  induction glyphs generalizing front state with
  | nil => rfl
  | cons glyph glyphs ih =>
      have whole : front ++ Text.ofGlyphs (glyph :: glyphs) =
          front ++ glyph.char :: Text.ofGlyphs glyphs := rfl
      have later (state : σ) := ih (front ++ [glyph.char]) state
      have size : (front ++ [glyph.char]).byteLength = front.byteLength + glyph.char.utf8Size := by
        simp
      rw [size, List.append_assoc, List.singleton_append, ← whole] at later
      rw [readGlyphs, Glyph.topLevelFrom]
      by_cases topLevel : glyph.isTopLevel = true
      · rw [if_pos topLevel]
        by_cases ascii : glyph.char.toNat < 0x80
        · have found := Text.byte?_ascii front ascii (Text.ofGlyphs glyphs)
          rw [← whole] at found
          rw [if_pos ⟨topLevel, ascii⟩, Text.utf8Size_of_lt ascii]
          rw [Text.utf8Size_of_lt ascii] at later
          simp only [List.range'_one, List.singleton_append, readThrough, byteAt_of_byte? found,
            ok_bind, later]
        · rw [if_neg (fun both => ascii both.2), readThrough_upper ignores, later]
          intro place member
          obtain ⟨lower, bound⟩ := List.mem_range'_1.mp member
          obtain ⟨inner, rfl⟩ := Nat.exists_eq_add_of_le lower
          exact Text.upperAt_char front (Nat.not_lt.mp ascii) (Text.ofGlyphs glyphs) (by omega)
      · rw [if_neg topLevel, if_neg (fun both => topLevel both.1), later]

/-- **Searches at top level.** From any offset, a search by bytes sees the ASCII characters at top
level. -/
theorem readThrough_topLevelPositions (ignores : IgnoresUpper step) {text rest : Text}
    {start cut : Nat} (left : text.dropBytes start = (cut, rest)) (state : σ) :
    readThrough text step state (text.topLevelPositions start) =
      readGlyphs step state (start + cut) rest.scan := by
  have scanned (front : Text) := readThrough_topLevelFrom ignores front rest.scan state
  simp only [Text.ofGlyphs_scan] at scanned
  rw [Text.topLevelPositions, left]
  rcases Text.dropBytes_cases left with ⟨rfl, front, rfl, rfl⟩ | ⟨rfl, rfl, past⟩ |
    ⟨_, front, c, rfl, before, size⟩
  · exact scanned front
  · rfl
  · have place : (front ++ [c]).byteLength = start + cut := by
      rw [← size]
      simp
    have others := scanned (front ++ [c])
    rw [place, List.append_assoc, List.singleton_append] at others
    rw [← others]
    refine readThrough_upper ignores (fun index member => ?_) state _
    obtain ⟨lower, bound⟩ := List.mem_range'_1.mp member
    exact Text.upperAt_of_cut left lower bound

end Reading

/-! ### The search for a byte -/

/-- The step of the search for a byte. -/
def findStep (target : UInt8) (_ : Unit) (place : Nat) (byte : UInt8) : Checked (Unit ⊕ Nat) :=
  if byte = target then return .inr place else return .inl ()

/-- The first offset at top level, at or after another one, at which a byte stands. -/
def findTopLevel? (text : Text) (target : UInt8) (start : Nat) : Checked (Option Nat) := do
  let places ← topLevelPositions text start
  readThrough text (findStep target) () places

/-- Whether an offset is at top level in a scan from the start. -/
def isTopLevelAt (text : Text) (offset : Nat) : Checked Bool := do
  let places ← topLevelPositions text 0
  return (places.takeWhile (· ≤ offset)).any (· == offset)

/-- Every offset at top level is the index of a byte. -/
theorem lt_of_mem_topLevelPositions {text : Text} {start place : Nat}
    (member : place ∈ text.topLevelPositions start) : place < text.byteLength := by
  cases left : text.dropBytes start with
  | mk cut rest =>
    rw [Text.topLevelPositions, left, List.mem_append, List.mem_range'_1] at member
    rcases member with inside | later
    · obtain ⟨byte, found, _⟩ := Text.upperAt_of_cut left inside.1 inside.2
      exact Text.lt_byteLength_of_byte? found
    · have bounds := Glyph.bounds_of_mem_topLevelFrom later
      rw [Text.ofGlyphs_scan] at bounds
      rcases Text.dropBytes_cases left with ⟨rfl, front, rfl, rfl⟩ | ⟨rfl, rfl, past⟩ |
        ⟨_, front, c, rfl, before, size⟩
      · rw [Text.byteLength_append]
        omega
      · cases later
      · rw [Text.byteLength_append, Text.byteLength_cons]
        omega

/-- A byte is found at the first of the offsets at top level at which it stands. -/
theorem findTopLevel?_eq_find? (text : Text) (target : UInt8) (start : Nat) :
    findTopLevel? text target start =
      .ok ((text.topLevelPositions start).find? fun place => text.byte? place == some target) := by
  have within : ∀ place ∈ text.topLevelPositions start, place < text.byteLength :=
    fun place => lt_of_mem_topLevelPositions
  rw [findTopLevel?, topLevelPositions_eq, ok_bind]
  generalize text.topLevelPositions start = places at within
  induction places with
  | nil => rfl
  | cons place places ih =>
      obtain ⟨byte, found, read⟩ := exists_byte_of_lt (within place List.mem_cons_self)
      have later := ih fun other member => within other (List.mem_cons_of_mem _ member)
      rw [readThrough, read, ok_bind, List.find?_cons, found, findStep]
      by_cases same : byte = target
      · rw [if_pos same, same, beq_self_eq_true]
        rfl
      · have differs : (some byte == some target) = false := by simpa using same
        rw [if_neg same, differs]
        exact later

/-- A search for one byte finds the first glyph with that character at top level. -/
theorem readGlyphs_find {target : Char} (ascii : target.toNat < 0x80) (previous : Option Glyph)
    (offset : Nat) (glyphs : List Glyph) :
    readGlyphs (findStep (byteOf target)) () offset glyphs =
      .ok ((search (Text.topLevelTest target) previous glyphs).map
        fun (passed, _) => offset + (Text.ofGlyphs passed).byteLength) := by
  induction glyphs generalizing previous offset with
  | nil => rfl
  | cons glyph glyphs ih =>
      have shift (passed : List Glyph) : offset + glyph.char.utf8Size +
          (Text.ofGlyphs passed).byteLength =
            offset + (Text.ofGlyphs (glyph :: passed)).byteLength := by
        simp [Text.ofGlyphs, Nat.add_assoc]
      have later := ih (some glyph) (offset + glyph.char.utf8Size)
      simp only [shift] at later
      rw [readGlyphs, search, Text.topLevelTest]
      by_cases matched : glyph.isTopLevelChar target = true
      · have char := Glyph.char_of_isTopLevelChar matched
        have topLevel := (Bool.and_eq_true_iff.mp matched).1
        rw [if_pos ⟨topLevel, char ▸ ascii⟩, if_pos matched, char, findStep, if_pos rfl]
        rfl
      · rw [if_neg matched, Option.map_map]
        split
        case isTrue isRead =>
          rw [findStep, if_neg (mt (isRead.byteOf_eq_iff ascii).mp matched)]
          exact later
        case isFalse => exact later

/-- **The search for a character at top level, by bytes.** -/
theorem findTopLevel?_eq {target : Char} (ascii : target.toNat < 0x80) (text : Text)
    (start : Nat) :
    findTopLevel? text (byteOf target) start = .ok (text.findTopLevel? target start) := by
  cases left : text.dropBytes start with
  | mk cut rest =>
    have ignores : IgnoresUpper (findStep (byteOf target)) := fun _ _ _ upper =>
      if_neg (ne_byteOf_of_le upper ascii)
    rw [findTopLevel?, topLevelPositions_eq, ok_bind, readThrough_topLevelPositions ignores left,
      readGlyphs_find ascii none, Text.findTopLevel?, left]
    simp only [Text.splitTopLevel?_eq, Option.map_map]
    rfl

/-- The search from the end of a front is the one in what follows it. -/
theorem findTopLevel?_append {target : Char} (ascii : target.toNat < 0x80) (front rest : Text) :
    findTopLevel? (front ++ rest) (byteOf target) front.byteLength =
      .ok ((Text.splitTopLevel? target rest).map
        fun (before, _) => front.byteLength + before.byteLength) := by
  rw [findTopLevel?_eq ascii, Text.findTopLevel?, Text.dropBytes_append]
  rfl

/-- The end of the statement that an offset is in. -/
def statementEnd? (text : Text) (start : Nat) : Checked (Option Nat) := do
  let found ← findTopLevel? text (byteOf ';') start
  return found.map (· + 1)

/-- Whether an offset is at top level is told without a fault. -/
theorem isTopLevelAt_eq (text : Text) (offset : Nat) :
    isTopLevelAt text offset = .ok (text.isTopLevelAt offset) := by
  rw [isTopLevelAt, topLevelPositions_eq]
  rfl

/-! ### The search for a closing parenthesis -/

/-- The step of the search for a closing parenthesis, `depth` of which are open. -/
def closingStep (depth place : Nat) (byte : UInt8) : Checked (Nat ⊕ Nat) :=
  if byte = byteOf '(' then return .inl (depth + 1)
  else if byte = byteOf ')' then do
    let less ← minus depth 1
    if less = 0 then return .inr place else return .inl less
  else return .inl depth

/-- The group whose text starts at an offset. -/
def parenSpanFrom? (text : Text) (first : Nat) : Checked (Option Text.ParenSpan) := do
  let places ← topLevelPositions text first
  let closing ← readThrough text closingStep 1 places
  return closing.map fun last => ⟨first, last, last + 1⟩

/-- The group whose opening parenthesis is at an offset. -/
def parenSpan? (text : Text) (opening : Nat) : Checked (Option Text.ParenSpan) := do
  let first ← succ opening
  parenSpanFrom? text first

/-- **The depth never falls below zero.** The search closes one parenthesis more than are open in
the glyphs it passes. -/
theorem readGlyphs_closing (depth offset : Nat) (glyphs : List Glyph) :
    readGlyphs closingStep (depth + 1) offset glyphs =
      .ok ((Text.splitClosing? depth glyphs).map
        fun (inner, _) => offset + (Text.ofGlyphs inner).byteLength) := by
  induction glyphs generalizing depth offset with
  | nil => rfl
  | cons glyph glyphs ih =>
      have shift (passed : List Glyph) : offset + glyph.char.utf8Size +
          (Text.ofGlyphs passed).byteLength =
            offset + (Text.ofGlyphs (glyph :: passed)).byteLength := by
        simp [Text.ofGlyphs, Nat.add_assoc]
      have later (depth : Nat) := ih depth (offset + glyph.char.utf8Size)
      simp only [shift] at later
      rw [readGlyphs]
      simp only [Text.splitClosing?]
      cases closes : glyph.isTopLevelChar ')' with
      | true =>
          have isRead := Glyph.isRead_of_isTopLevelChar closes (by decide)
          have byte := (isRead.byteOf_eq_iff (by decide)).mpr closes
          have less : minus (depth + 1) 1 = .ok depth := by rw [Nat.add_comm, minus_add]
          rw [if_pos isRead, byte, closingStep, if_neg (by decide), if_pos rfl, less, ok_bind]
          cases depth with
          | zero => rfl
          | succ depth =>
              rw [if_neg (Nat.succ_ne_zero depth)]
              simp only [if_true, Option.map_map]
              exact later depth
      | false =>
          simp only [Bool.false_eq_true, if_false, Option.map_map]
          cases opens : glyph.isTopLevelChar '(' with
          | true =>
              have isRead := Glyph.isRead_of_isTopLevelChar opens (by decide)
              have byte := (isRead.byteOf_eq_iff (by decide)).mpr opens
              rw [if_pos isRead, byte, closingStep, if_pos rfl, if_pos rfl]
              exact later (depth + 1)
          | false =>
              split
              case isTrue isRead =>
                have differs {target : Char} (ascii : target.toNat < 0x80)
                    (misses : glyph.isTopLevelChar target = false) :
                    byteOf glyph.char ≠ byteOf target :=
                  mt (isRead.byteOf_eq_iff ascii).mp (Bool.eq_false_iff.mp misses)
                rw [closingStep, if_neg (differs (by decide) opens),
                  if_neg (differs (by decide) closes)]
                exact later depth
              case isFalse => exact later depth

/-- The parentheses from an offset on are matched without a fault. -/
theorem parenSpanFrom?_eq {text rest : Text} {first cut : Nat}
    (left : text.dropBytes first = (cut, rest)) :
    parenSpanFrom? text first =
      .ok ((Text.splitParens? rest).map fun (inner, _) =>
        ⟨first, first + cut + Text.byteLength inner, first + cut + Text.byteLength inner + 1⟩) := by
  have ignores : IgnoresUpper closingStep := by
    intro depth place byte upper
    rw [closingStep, if_neg (ne_byteOf_of_le upper (by decide)),
      if_neg (ne_byteOf_of_le upper (by decide))]
    rfl
  rw [parenSpanFrom?, topLevelPositions_eq, ok_bind, readThrough_topLevelPositions ignores left,
    readGlyphs_closing, ok_bind, Text.splitParens?, Option.map_map, Option.map_map]
  rfl

/-- The parentheses from a boundary on are matched without a fault. -/
theorem parenSpanFrom?_append (front rest : Text) :
    parenSpanFrom? (front ++ rest) front.byteLength =
      .ok ((Text.splitParens? rest).map fun (inner, _) =>
        ⟨front.byteLength, (front ++ inner).byteLength, (front ++ inner).byteLength + 1⟩) := by
  rw [parenSpanFrom?_eq (Text.dropBytes_append front rest)]
  simp only [Nat.add_zero, Text.byteLength_append]

/-- **Parentheses.** The group of an opening parenthesis is found without a fault. -/
theorem parenSpan?_eq (text : Text) {opening : Nat} (below : opening < largest) :
    parenSpan? text opening = .ok (text.parenSpan? opening) := by
  cases left : text.dropBytes (opening + 1) with
  | mk cut rest =>
    rw [parenSpan?, succ_of_lt below, ok_bind, parenSpanFrom?_eq left, Text.parenSpan?, left]

end Checked

end RoutineScripts
