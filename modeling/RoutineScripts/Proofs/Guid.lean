import RoutineScripts.Guid
import RoutineScripts.Proofs.Text.Recogniser

/-!
# The characters of identifiers

Identifiers are made of hexadecimal digits in upper case and dashes. So nothing of them is lost when
one is read back from its form with braces (`Guid.parse?_braced`), and whatever was recognised as an
identifier in some letter case can be read (`Guid.parse?_of_written`).
-/

namespace RoutineScripts

/-- Texts of one length are told apart before anything that follows them. -/
theorem Text.precedes_append {left right : Text} (lengths : left.length = right.length)
    (before : left.precedes right = true) (leftTail rightTail : Text) :
    (left ++ leftTail).precedes (right ++ rightTail) = true := by
  induction left generalizing right with
  | nil =>
      obtain rfl := List.length_eq_zero_iff.mp lengths.symm
      cases before
  | cons a left ih =>
      cases right with
      | nil => cases lengths
      | cons b right =>
          simp only [List.cons_append, precedes] at before ⊢
          split
          case isTrue same =>
            rw [if_pos same] at before
            exact ih (Nat.succ.inj lengths) before
          case isFalse different => rwa [if_neg different] at before

namespace Guid

/-- The characters that identifiers are made of. -/
def alphabet : List Char :=
  "0123456789ABCDEF-".toList

theorem mem_alphabet {test : Char → Bool} (member : test ∈ shape) {c : Char}
    (passes : test c = true) : c ∈ alphabet := by
  have kinds : test = isHexDigit ∨ test = (· == '-') ∨ test = isVersionDigit ∨
      test = isVariantDigit := by
    simp only [shape, List.mem_append, List.mem_cons, List.mem_replicate] at member
    grind
  have small : ∀ n < 71, 48 ≤ n ∧ n ≤ 57 ∨ 65 ≤ n → Char.ofNat n ∈ alphabet := by decide
  have digits (bounds : 48 ≤ c.toNat ∧ c.toNat ≤ 57 ∨ 65 ≤ c.toNat ∧ c.toNat < 71) :
      c ∈ alphabet := by
    have inside := small c.toNat (by omega) (by omega)
    rwa [Char.ofNat_toNat] at inside
  rcases kinds with rfl | rfl | rfl | rfl
  · simp only [isHexDigit, Char.isDigit, Bool.or_eq_true, Bool.and_eq_true, decide_eq_true_eq,
      Char.le_def, UInt32.le_iff_toNat_le] at passes
    apply digits
    simp at passes ⊢
    omega
  · rw [beq_iff_eq.mp passes]
    decide
  · simp only [isVersionDigit, Bool.and_eq_true, decide_eq_true_eq, Char.le_def,
      UInt32.le_iff_toNat_le] at passes
    apply digits
    simp at passes ⊢
    omega
  · simp only [isVariantDigit, Bool.or_eq_true, beq_iff_eq] at passes
    rcases passes with ((rfl | rfl) | rfl) | rfl <;> decide

/-- The characters of an identifier are hexadecimal digits and dashes. -/
theorem mem_alphabet_of_mem (guid : Guid) {c : Char} (member : c ∈ guid.text) : c ∈ alphabet := by
  have canonical := guid.canonical
  rw [isCanonical] at canonical
  split at canonical
  case h_2 => cases canonical
  case h_1 accepted read =>
    rw [Recogniser.splits_each _ _ _ _ read, List.append_nil] at member
    obtain ⟨test, inside, passes⟩ := Recogniser.exists_test_of_each read c member
    exact mem_alphabet inside passes

/-- A character outside the alphabet stands in no identifier. -/
theorem not_mem_of_isCanonical {inner : Text} (canonical : isCanonical inner.asciiUpper = true)
    {z : Char} (outside : z.toUpper ∉ alphabet) : z ∉ inner := fun member =>
  outside (mem_alphabet_of_mem ⟨inner.asciiUpper, canonical⟩ (List.mem_map_of_mem member))

theorem text_ne_nil (guid : Guid) : guid.text ≠ [] := by
  intro empty
  have canonical := guid.canonical
  rw [empty] at canonical
  exact absurd canonical (by decide)

/-- Identifiers with the same text are the same. -/
theorem eq_of_text_eq {first second : Guid} (same : first.text = second.text) : first = second := by
  obtain ⟨text, canonical⟩ := first
  cases same
  rfl

/-- Different identifiers have different canonical forms. -/
theorem text_ne {first second : Guid} (differs : first ≠ second) : first.text ≠ second.text :=
  fun same => differs (eq_of_text_eq same)

/-- An identifier is among others when its canonical form is among theirs. -/
theorem mem_map_text_iff {guid : Guid} {guids : List Guid} :
    guid.text ∈ guids.map Guid.text ↔ guid ∈ guids := by
  rw [List.mem_map]
  exact ⟨fun ⟨other, member, same⟩ => eq_of_text_eq same ▸ member,
    fun member => ⟨guid, member, rfl⟩⟩

/-- A visible text starts with no white space. -/
theorem dropWhile_isBlank {text : Text} (visible : ∀ c ∈ text, isBlank c = false) :
    text.dropWhile isBlank = text := by
  cases text with
  | nil => rfl
  | cons c rest =>
      rw [List.dropWhile_cons, if_neg (by simp [visible c List.mem_cons_self])]

/-- An identifier is read in any letter case, wherever braces stand in it. -/
theorem parse?_of_filter_eq {value inner : Text}
    (canonical : isCanonical inner.asciiUpper = true)
    (bare : value.filter (fun c => c != '{' && c != '}') = inner) :
    parse? value = some ⟨inner.asciiUpper, canonical⟩ := by
  have visible (c : Char) (member : c ∈ inner) : isBlank c = false := by
    have listed : c.toUpper ∈ alphabet :=
      mem_alphabet_of_mem ⟨inner.asciiUpper, canonical⟩ (List.mem_map_of_mem member)
    rw [Bool.eq_false_iff]
    intro blank
    rw [Recogniser.toUpper_of_isBlank blank] at listed
    have shown : alphabet.all (!isBlank ·) = true := by decide
    simpa [blank] using List.all_eq_true.mp shown c listed
  have trimmed : Text.trim inner = inner := by
    have reversed : inner.reverse.dropWhile isBlank = inner.reverse :=
      dropWhile_isBlank fun c member => visible c (List.mem_reverse.mp member)
    rw [Text.trim, dropWhile_isBlank visible, Text.dropTail, reversed, List.reverse_reverse]
  rw [parse?]
  simp only [bare, trimmed, canonical, dite_true]

/-- A canonical text holds no braces. -/
theorem filter_of_isCanonical {inner : Text} (canonical : isCanonical inner.asciiUpper = true) :
    inner.filter (fun c => c != '{' && c != '}') = inner := by
  rw [List.filter_eq_self]
  intro c member
  have listed : c.toUpper ∈ alphabet :=
    mem_alphabet_of_mem ⟨inner.asciiUpper, canonical⟩ (List.mem_map_of_mem member)
  rw [Bool.and_eq_true, bne_iff_ne, bne_iff_ne]
  refine ⟨?_, ?_⟩ <;> rintro rfl <;> exact absurd listed (by decide)

/-- An identifier between braces is read in any letter case. -/
theorem parse?_of_isCanonical {inner : Text} (canonical : isCanonical inner.asciiUpper = true) :
    parse? ('{' :: inner ++ ['}']) = some ⟨inner.asciiUpper, canonical⟩ := by
  refine parse?_of_filter_eq canonical ?_
  rw [List.filter_append, List.filter_cons, if_neg (by decide), filter_of_isCanonical canonical]
  exact List.append_nil _

/-- The text of an identifier is in upper case. -/
theorem asciiUpper_text (guid : Guid) : Text.asciiUpper guid.text = guid.text := by
  have upper : ∀ c ∈ alphabet, c.toUpper = c := by
    have each : alphabet.all (fun c => c.toUpper == c) = true := by decide
    simpa using each
  rw [Text.asciiUpper,
    List.map_congr_left fun c member => upper c (guid.mem_alphabet_of_mem member), List.map_id']

/-- **Identifiers are read back.** -/
theorem parse?_braced (guid : Guid) : parse? guid.braced = some guid := by
  have upper := guid.asciiUpper_text
  rw [braced, parse?_of_isCanonical (upper.symm ▸ guid.canonical)]
  exact congrArg some (eq_of_text_eq upper)

/-- **Spellings.** An identifier is read in any letter case, without braces and between them. -/
theorem parse?_of_asciiUpper_eq {guid : Guid} {spelling : Text}
    (same : spelling.asciiUpper = guid.text) :
    parse? spelling = some guid ∧ parse? ('{' :: spelling ++ ['}']) = some guid := by
  have canonical : isCanonical spelling.asciiUpper = true := same.symm ▸ guid.canonical
  have named : (⟨spelling.asciiUpper, canonical⟩ : Guid) = guid := eq_of_text_eq same
  rw [parse?_of_filter_eq canonical (filter_of_isCanonical canonical),
    parse?_of_isCanonical canonical, named]
  exact ⟨rfl, rfl⟩

/-- Identifiers are as long as their shape. -/
theorem length_text (guid : Guid) : guid.text.length = shape.length := by
  have canonical := guid.canonical
  rw [isCanonical] at canonical
  split at canonical
  case h_2 => cases canonical
  case h_1 accepted read =>
    rw [Recogniser.splits_each _ _ _ _ read, List.append_nil, Recogniser.length_of_each read]

/-- Braces leave the order of identifiers. -/
theorem precedes_braced {first second : Guid}
    (before : first.text.precedes second.text = true) :
    first.braced.precedes second.braced = true := by
  have lengths : first.text.length = second.text.length :=
    first.length_text.trans second.length_text.symm
  rw [braced, braced, List.cons_append, List.cons_append, Text.precedes, if_pos rfl]
  exact Text.precedes_append lengths before ['}'] ['}']

/-- What matches some classes in any letter case matches them in upper case. -/
theorem each_asciiUpper {tests : List (Char → Bool)} {text accepted rest : Text}
    (found : Recogniser.each (tests.map fun test c => test c.toUpper) text =
      some (accepted, rest)) :
    Recogniser.each tests accepted.asciiUpper = some (accepted.asciiUpper, []) := by
  induction tests generalizing text accepted with
  | nil =>
      cases found
      rfl
  | cons test tests ih =>
      cases text with
      | nil => cases found
      | cons c text =>
          rw [List.map_cons, Recogniser.each] at found
          split at found
          case isFalse => cases found
          case isTrue passes =>
            simp only [Option.map_eq_some_iff, Prod.exists, Prod.mk.injEq] at found
            obtain ⟨others, after, read, rfl, rfl⟩ := found
            have later := ih read
            simp only [Text.asciiUpper] at later ⊢
            rw [List.map_cons, Recogniser.each, if_pos passes, later, Option.map_some]

/-- What matches some classes in upper case matches them in any letter case. -/
theorem each_of_asciiUpper {tests : List (Char → Bool)} {accepted : Text}
    (found : Recogniser.each tests accepted.asciiUpper = some (accepted.asciiUpper, []))
    (rest : Text) :
    Recogniser.each (tests.map fun test c => test c.toUpper) (accepted ++ rest) =
      some (accepted, rest) := by
  induction tests generalizing accepted with
  | nil =>
      cases accepted with
      | nil => rfl
      | cons c accepted => cases found
  | cons test tests ih =>
      cases accepted with
      | nil => cases found
      | cons c accepted =>
          simp only [Text.asciiUpper, List.map_cons, Recogniser.each] at found
          split at found
          case isFalse => cases found
          case isTrue passes =>
            simp only [Option.map_eq_some_iff, Prod.exists, Prod.mk.injEq, List.cons.injEq]
              at found
            obtain ⟨_, _, read, ⟨_, rfl⟩, rfl⟩ := found
            rw [List.map_cons, List.cons_append, Recogniser.each, if_pos passes, ih read,
              Option.map_some]

/-- What is written as an identifier is one in capitals, whatever follows it. -/
theorem written_append_iff {inner rest : Text} :
    written (inner ++ rest) = some (inner, rest) ↔ isCanonical inner.asciiUpper = true := by
  constructor
  · intro found
    rw [isCanonical, each_asciiUpper found]
  · intro canonical
    rw [isCanonical] at canonical
    split at canonical
    case h_2 => cases canonical
    case h_1 accepted read =>
      have whole := Recogniser.splits_each _ _ _ _ read
      rw [List.append_nil] at whole
      rw [← whole] at read
      exact each_of_asciiUpper read rest

/-- An identifier is written as it is kept. -/
theorem written_text (guid : Guid) (rest : Text) :
    written (guid.text ++ rest) = some (guid.text, rest) :=
  written_append_iff.mpr (guid.asciiUpper_text.symm ▸ guid.canonical)

/-- What is written as an identifier names one. -/
theorem parse?_of_written {text inner rest : Text} (found : written text = some (inner, rest)) :
    ∃ guid, parse? ('{' :: inner ++ ['}']) = some guid := by
  have canonical : isCanonical inner.asciiUpper = true := by
    rw [isCanonical, each_asciiUpper found]
  exact ⟨_, parse?_of_isCanonical canonical⟩

/-- Identifiers with the same text in braces are the same. -/
theorem braced_injective {first second : Guid} (same : first.braced = second.braced) :
    first = second := by
  have read := parse?_braced first
  rw [same, parse?_braced] at read
  exact (Option.some.inj read).symm

/-- **Values with the same identifier.** -/
theorem same_iff {left right : Text} :
    same left right = true ↔ ∃ guid, parse? left = some guid ∧ parse? right = some guid := by
  rw [same]
  cases first : parse? left with
  | none => simp
  | some a =>
      cases second : parse? right with
      | none => simp
      | some b => simpa using eq_comm

end Guid

end RoutineScripts
