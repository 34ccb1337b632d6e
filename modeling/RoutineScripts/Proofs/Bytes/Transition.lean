import RoutineScripts.Proofs.Bytes.Access
import RoutineScripts.Proofs.Lexical.Cut
import RoutineScripts.Proofs.Text.Words

/-!
# Transitions by bytes

The scan of a text can look at its bytes: at the byte at an index, at the one after it, and at the
bytes of a dollar tag. At the start of a character this is the transition on the character
(`Checked.advance_append`), and a byte that is none of ASCII changes no mode
(`Checked.advance_of_upper`). Only ASCII characters are taken together, so what a transition takes
has as many bytes as characters (`Mode.takes_advance`).
-/

namespace RoutineScripts

theorem onAscii_isIdentifierChar : OnAscii isIdentifierChar := fun _ identifier =>
  toNat_lt_of_isIdentifierChar identifier

/-- A dollar tag is ASCII. -/
theorem IsDollarTag.ascii {tag : Text} (isTag : IsDollarTag tag) : ∀ c ∈ tag, c.toNat < 0x80 := by
  obtain ⟨name, rfl, identifiers⟩ := isTag
  intro c member
  rw [← List.cons_append, List.mem_append, List.mem_cons, List.mem_singleton] at member
  rcases member with (rfl | inside) | rfl
  · decide
  · exact onAscii_isIdentifierChar c (identifiers c inside)
  · decide

namespace Mode

/-- A transition takes several characters together: `front` after the first one. -/
def Takes (step : Step) (c : Char) (rest front back : Text) : Prop :=
  rest = front ++ back ∧ step.skip = front.length + 1 ∧ ∀ d ∈ c :: front, d.toNat < 0x80

/-- What a tag at the front of a text takes. -/
theorem takes_tag {tag : Text} (isTag : IsDollarTag tag) {c : Char} {rest : Text}
    (leads : tag <+: c :: rest) (next : Mode) :
    ∃ front back, Takes ⟨next, tag.length⟩ c rest front back := by
  obtain ⟨back, whole⟩ := leads
  have ascii := isTag.ascii
  obtain ⟨name, rfl, _⟩ := isTag
  obtain ⟨rfl, rest⟩ := List.cons.inj whole
  exact ⟨name ++ ['$'], back, rest.symm, rfl, ascii⟩

/-- What two characters of a delimiter take. -/
theorem takes_pair {c d : Char} {rest : Text} (second : rest.head? = some d)
    (ascii : c.toNat < 0x80) (asciiToo : d.toNat < 0x80) (next : Mode) :
    ∃ front back, Takes ⟨next, 2⟩ c rest front back := by
  obtain ⟨back, rfl⟩ := List.head?_eq_some_iff.mp second
  exact ⟨[d], back, rfl, rfl, by simp [ascii, asciiToo]⟩

/-- **What a transition takes.** It takes one character, or several ASCII characters together. -/
theorem takes_advance {mode : Mode} (proper : mode.Proper) (c : Char) (rest : Text) :
    (mode.advance c rest).skip = 0 ∨
      ∃ front back, Takes (mode.advance c rest) c rest front back := by
  cases mode <;> simp only [advance]
  case normal =>
    split
    case isTrue opens => exact Or.inr (takes_pair opens.2 (opens.1 ▸ by decide) (by decide) _)
    split
    case isTrue opens => exact Or.inr (takes_pair opens.2 (opens.1 ▸ by decide) (by decide) _)
    split
    case h_1 tag found =>
      obtain ⟨isTag, back, whole⟩ := dollarTag?_eq_some_iff.mp found
      exact Or.inr (takes_tag isTag ⟨back, whole.symm⟩ _)
    case h_2 =>
      left
      split
      · rfl
      · split <;> rfl
  case blockComment =>
    split
    case isTrue closes => exact Or.inr (takes_pair closes.2 (closes.1 ▸ by decide) (by decide) _)
    case isFalse => exact Or.inl rfl
  case singleQuoted =>
    split
    case isTrue quote =>
      split
      case isTrue doubled => exact Or.inr (takes_pair doubled (quote ▸ by decide) (by decide) _)
      case isFalse => exact Or.inl rfl
    case isFalse => exact Or.inl rfl
  case dollarQuoted tag =>
    split
    case isTrue closes =>
      exact Or.inr (takes_tag proper (List.isPrefixOf_iff_prefix.mp closes) _)
    case isFalse => exact Or.inl rfl
  all_goals
    left
    split <;> rfl

/-- A character outside ASCII changes no mode. -/
theorem advance_of_upper {mode : Mode} (proper : mode.Proper) {c : Char} (upper : 0x80 ≤ c.toNat)
    (rest : Text) : mode.advance c rest = ⟨mode, 0⟩ := by
  have differs {d : Char} (ascii : d.toNat < 0x80) : c ≠ d := by
    intro same
    rw [same] at upper
    exact Nat.not_lt.mpr upper ascii
  have dollar : c ≠ '$' := differs (by decide)
  cases mode with
  | dollarQuoted tag =>
      refine if_neg fun closes => ?_
      obtain ⟨name, rfl, _⟩ := proper
      exact dollar (List.cons_prefix_cons.mp (List.isPrefixOf_iff_prefix.mp closes)).1.symm
  | normal =>
      have untagged : RoutineScripts.dollarTag? (c :: rest) = none := by
        rw [dollarTag?_cons, if_neg fun both => dollar both.1]
      simp only [advance, untagged]
      rw [if_neg fun both => differs (by decide) both.1,
        if_neg fun both => differs (by decide) both.1, if_neg (differs (by decide)),
        if_neg (differs (by decide))]
  | lineComment => exact if_neg (not_or.mpr ⟨differs (by decide), differs (by decide)⟩)
  | blockComment => exact if_neg fun both => differs (by decide) both.1
  | singleQuoted => exact if_neg (differs (by decide))
  | doubleQuoted => exact if_neg (differs (by decide))

end Mode

namespace Checked

/-! ### Runs and dollar tags -/

/-- The first index from one on at which no ASCII character stands that passes a test. -/
def skipWhile (test : Char → Bool) (text : Text) (index : Nat) : Checked Nat :=
  if index < text.byteLength then do
    let byte ← byteAt text index
    if onByte test byte then skipWhile test text (index + 1) else return index
  else return index
termination_by text.byteLength - index

/-- The dollar tag at an index. -/
def dollarTag? (text : Text) (index : Nat) : Checked (Option Text) :=
  if text.byte? index = some (byteOf '$') then do
    let stop ← skipWhile isIdentifierChar text (index + 1)
    if text.byte? stop = some (byteOf '$') then do
      let tag ← slice text index (stop + 1)
      return some tag
    else return none
  else return none

/-- Nothing is skipped where a test fails. -/
theorem skipWhile_of_not {test : Char → Bool} (onAscii : OnAscii test) {text : Text} {index : Nat}
    (fails : (text.charAt? index).any test = false) :
    skipWhile test text index = .ok index := by
  rw [skipWhile]
  split
  case isTrue within =>
    obtain ⟨byte, found, read⟩ := exists_byte_of_lt within
    rw [← Text.any_byte? onAscii, found, Option.any_some] at fails
    rw [read, ok_bind, fails]
    rfl
  case isFalse => rfl

/-- What is skipped after a boundary is the longest front that passes the test. -/
theorem skipWhile_append {test : Char → Bool} (onAscii : OnAscii test) (front rest : Text) :
    skipWhile test (front ++ rest) front.byteLength =
      .ok (front.byteLength + Text.byteLength (rest.takeWhile test)) := by
  induction rest generalizing front with
  | nil =>
      rw [skipWhile_of_not onAscii (by rw [Text.charAt?_append]; rfl)]
      rfl
  | cons c rest ih =>
      cases passes : test c with
      | false =>
          have fails : ((front ++ c :: rest).charAt? front.byteLength).any test = false := by
            rw [Text.charAt?_append]
            exact passes
          rw [skipWhile_of_not onAscii fails, List.takeWhile_cons_of_neg (by simp [passes])]
          rfl
      | true =>
          have ascii := onAscii c passes
          have later := ih (front ++ [c])
          have size := Text.byteLength_concat ascii front
          rw [List.append_assoc, List.singleton_append, size] at later
          rw [skipWhile, if_pos (Text.byteLength_lt_append front c rest),
            byteAt_of_byte? (Text.byte?_ascii front ascii rest), ok_bind, onByte_byteOf ascii,
            if_pos passes, later, List.takeWhile_cons_of_pos passes, Text.byteLength_cons,
            Text.utf8Size_of_lt ascii, Nat.add_assoc]

/-- **Dollar tags by bytes.** -/
theorem dollarTag?_append (front rest : Text) :
    dollarTag? (front ++ rest) front.byteLength = .ok (RoutineScripts.dollarTag? rest) := by
  have opens := Text.byte?_head_iff front rest rfl rfl (by decide : '$'.toNat < 0x80)
  cases rest with
  | nil =>
      rw [dollarTag?, if_neg (fun found => by cases opens.mp found)]
      rfl
  | cons c rest =>
      rw [dollarTag?, RoutineScripts.dollarTag?_cons]
      by_cases dollar : c = '$'
      · subst dollar
        have run := skipWhile_append onAscii_isIdentifierChar (front ++ ['$']) rest
        have parts : rest = rest.takeWhile isIdentifierChar ++ rest.dropWhile isIdentifierChar :=
          List.takeWhile_append_dropWhile.symm
        generalize rest.takeWhile isIdentifierChar = name at run parts ⊢
        generalize rest.dropWhile isIdentifierChar = more at parts ⊢
        subst parts
        have first := Text.byteLength_concat (c := '$') (by decide) front
        rw [List.append_assoc, List.singleton_append, first] at run
        have closes : (front ++ '$' :: (name ++ more)).byte?
            (front.byteLength + 1 + Text.byteLength name) = some (byteOf '$') ↔
              more.head? = some '$' :=
          Text.byte?_head_iff (front ++ '$' :: name) more (by simp)
            (by simp [Text.utf8Size_of_lt]; omega) (by decide)
        rw [if_pos (opens.mpr rfl), run, ok_bind]
        by_cases closing : more.head? = some '$'
        · obtain ⟨after, rfl⟩ := List.head?_eq_some_iff.mp closing
          have part : slice (front ++ '$' :: (name ++ '$' :: after)) front.byteLength
              (front.byteLength + 1 + Text.byteLength name + 1) = .ok ('$' :: (name ++ ['$'])) :=
            slice_eq front after (by simp) rfl (by simp [Text.utf8Size_of_lt]; omega)
          rw [if_pos (closes.mpr rfl), if_pos ⟨rfl, rfl⟩, part, ok_bind]
          rfl
        · rw [if_neg (mt closes.mp closing), if_neg (fun both => closing both.2)]
          rfl
      · have differs : ¬ (c :: rest).head? = some '$' := fun same =>
          dollar (Option.some.inj same)
        rw [if_neg (mt opens.mp differs), if_neg (fun both => dollar both.1)]
        rfl

/-! ### Transitions -/

/-- The transition on the byte at an index. -/
def advance (text : Text) (mode : Mode) (index : Nat) : Checked Step := do
  let byte ← byteAt text index
  let next := text.byte? (index + 1)
  match mode with
  | .lineComment =>
      return if byte = byteOf '\n' ∨ byte = byteOf '\r' then ⟨.normal, 0⟩ else ⟨mode, 0⟩
  | .blockComment =>
      return if byte = byteOf '*' ∧ next = some (byteOf '/') then ⟨.normal, 2⟩ else ⟨mode, 0⟩
  | .dollarQuoted tag =>
      let rest ← bytesFrom text index
      return if (Utf8.encode tag).isPrefixOf rest then ⟨.normal, tag.byteLength⟩ else ⟨mode, 0⟩
  | .singleQuoted =>
      return if byte = byteOf '\'' then
        if next = some (byteOf '\'') then ⟨mode, 2⟩ else ⟨.normal, 0⟩
      else ⟨mode, 0⟩
  | .doubleQuoted => return if byte = byteOf '"' then ⟨.normal, 0⟩ else ⟨mode, 0⟩
  | .normal =>
      if byte = byteOf '-' ∧ next = some (byteOf '-') then return ⟨.lineComment, 2⟩
      else if byte = byteOf '/' ∧ next = some (byteOf '*') then return ⟨.blockComment, 2⟩
      else if byte = byteOf '$' then
        match ← dollarTag? text index with
        | some tag => return ⟨.dollarQuoted tag, tag.byteLength⟩
        | none => return ⟨mode, 0⟩
      else if byte = byteOf '\'' then return ⟨.singleQuoted, 0⟩
      else if byte = byteOf '"' then return ⟨.doubleQuoted, 0⟩
      else return ⟨mode, 0⟩

/-- A byte outside ASCII changes no mode. -/
theorem advance_of_upper {text : Text} {mode : Mode} (proper : mode.Proper) {index : Nat}
    {byte : UInt8} (found : text.byte? index = some byte) (upper : 0x80 ≤ byte.toNat) :
    advance text mode index = .ok ⟨mode, 0⟩ := by
  have differs {d : Char} (ascii : d.toNat < 0x80) : byte ≠ byteOf d := ne_byteOf_of_le upper ascii
  have newline : byte ≠ byteOf '\n' := differs (by decide)
  have feed : byte ≠ byteOf '\r' := differs (by decide)
  have star : byte ≠ byteOf '*' := differs (by decide)
  have dash : byte ≠ byteOf '-' := differs (by decide)
  have slash : byte ≠ byteOf '/' := differs (by decide)
  have dollar : byte ≠ byteOf '$' := differs (by decide)
  have quote : byte ≠ byteOf '\'' := differs (by decide)
  have double : byte ≠ byteOf '"' := differs (by decide)
  rw [advance, byteAt_of_byte? found, ok_bind]
  cases mode with
  | dollarQuoted tag =>
      obtain ⟨name, rfl, _⟩ := proper
      obtain ⟨within, here⟩ := List.getElem?_eq_some_iff.mp found
      have later : ¬ (Utf8.encode ('$' :: (name ++ ['$']))).isPrefixOf
          ((Utf8.encode text).drop index) = true := by
        rw [List.isPrefixOf_iff_prefix, List.drop_eq_getElem_cons within, here]
        exact fun leads => dollar (List.cons_prefix_cons.mp leads).1.symm
      rw [Utf8.length_encode] at within
      simp only [bytesFrom, if_pos (Nat.le_of_lt within), ok_bind, if_neg later]
      rfl
  | _ =>
      simp only [newline, feed, star, dash, slash, dollar, quote, double, false_and, or_self,
        if_false]
      rfl

/-- **Transitions by bytes.** At the start of a character the transition on its first byte is the
one on the character. -/
theorem advance_append {mode : Mode} (proper : mode.Proper) (front : Text) (c : Char)
    (rest : Text) :
    advance (front ++ c :: rest) mode front.byteLength = .ok (mode.advance c rest) := by
  by_cases ascii : c.toNat < 0x80
  · have same {d : Char} (asciiToo : d.toNat < 0x80) : byteOf c = byteOf d ↔ c = d :=
      byteOf_eq_iff ascii asciiToo
    have next {d : Char} (asciiToo : d.toNat < 0x80) :
        (front ++ c :: rest).byte? (front.byteLength + 1) = some (byteOf d) ↔
          rest.head? = some d :=
      Text.byte?_head_iff (front ++ [c]) rest (by simp) (Text.byteLength_concat ascii front)
        asciiToo
    rw [advance, byteAt_of_byte? (Text.byte?_ascii front ascii rest), ok_bind]
    cases mode with
    | lineComment =>
        simp only [same (d := '\n') (by decide), same (d := '\r') (by decide)]
        rfl
    | blockComment =>
        simp only [same (d := '*') (by decide), next (d := '/') (by decide)]
        rfl
    | singleQuoted =>
        simp only [same (d := '\'') (by decide), next (d := '\'') (by decide)]
        rfl
    | doubleQuoted =>
        simp only [same (d := '"') (by decide)]
        rfl
    | dollarQuoted tag =>
        have size : tag.byteLength = tag.length := Text.byteLength_of_ascii proper.ascii
        simp only [bytesFrom_append, ok_bind, Utf8.isPrefixOf_encode proper.ascii, size]
        rfl
    | normal =>
        simp only [same (d := '-') (by decide), same (d := '/') (by decide),
          same (d := '$') (by decide), same (d := '\'') (by decide), same (d := '"') (by decide),
          next (d := '-') (by decide), next (d := '*') (by decide), dollarTag?_append, ok_bind,
          Mode.advance]
        split
        · rfl
        split
        · rfl
        cases tagged : RoutineScripts.dollarTag? (c :: rest) with
        | some tag =>
            have isTag := (dollarTag?_eq_some_iff.mp tagged).1
            have dollar : c = '$' := by
              rw [dollarTag?_cons] at tagged
              split at tagged
              case isTrue both => exact both.1
              case isFalse => cases tagged
            have size : tag.byteLength = tag.length := Text.byteLength_of_ascii isTag.ascii
            simp only [if_pos dollar, size]
            rfl
        | none =>
            by_cases dollar : c = '$'
            · subst dollar
              rfl
            · simp only [if_neg dollar]
              split
              · rfl
              · split <;> rfl
  · have upper : 0x80 ≤ c.toNat := Nat.not_lt.mp ascii
    obtain ⟨byte, found, high⟩ := Text.upperAt_char front upper rest c.utf8Size_pos
    rw [Nat.add_zero] at found
    rw [advance_of_upper proper found high, Mode.advance_of_upper proper upper]

end Checked

end RoutineScripts
