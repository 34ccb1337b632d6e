import RoutineScripts.Proofs.Bytes.Transition
import RoutineScripts.Proofs.Routine.Opening
import RoutineScripts.Proofs.Routine.Remark
import RoutineScripts.Proofs.Text.Words

/-!
# Comment statements by bytes

A comment statement is looked for in what follows the byte at an offset, if a slice of the text can
start there. The pattern itself gives the parts that it matched as texts, so the offsets of a remark
are sums of lengths of fronts (`Checked.findRemark?_eq`).

The search for a remark on a definition starts one byte after its header does, and a header opens no
comment statement itself (`Header.neverOpens`). So the remark is the first one after the header
(`Header.find?_remark`).
-/

namespace RoutineScripts

namespace Remark

open Recogniser Text

/-- A character is a form of C or O alone. -/
theorem eq_of_isFormOf {first letter c : Char} (plain : first ∈ ['C', 'O'])
    (form : isFormOf first c = true) (other : isFormOf letter c = true) : letter = first := by
  have upper : c.toUpper = first := by
    simp only [List.mem_cons, List.not_mem_nil, or_false] at plain
    rcases plain with rfl | rfl <;> simpa [isFormOf] using form
  simp only [isFormOf, Bool.or_eq_true, Bool.and_eq_true, beq_iff_eq, upper] at other
  rcases other with (same | ⟨_, rfl⟩) | ⟨_, rfl⟩
  · exact same.symm
  · rw [← upper] at plain
    exact absurd plain (by decide)
  · rw [← upper] at plain
    exact absurd plain (by decide)

/-- Two parts that open no comment statement open none together. -/
theorem neverOpens_of_both {front back : Text} (first : neverOpens front = true)
    (second : neverOpens back = true) : neverOpens (front ++ back) = true := by
  induction front with
  | nil => exact second
  | cons c rest ih =>
      rw [neverOpens, Bool.and_eq_true] at first
      rw [List.cons_append, neverOpens, ih first.2, Bool.and_true]
      cases rest with
      | nil =>
          have other := first.1
          rw [List.head?_nil, Option.any_none, Bool.or_false] at other
          rw [other, Bool.true_or]
      | cons d rest => exact first.1

/-- White space opens no comment statement. -/
theorem neverOpens_of_blank {gap : Text} (blank : ∀ c ∈ gap, isBlank c = true) :
    neverOpens gap = true := by
  induction gap with
  | nil => rfl
  | cons c gap ih =>
      obtain ⟨here, later⟩ := List.forall_mem_cons.mp blank
      have other : isFormOf 'C' c = false := isFormOf_of_isBlank here (by decide)
      rw [neverOpens, other, ih later]
      rfl

/-- A word opens nothing if its letters do not. -/
theorem neverOpens_of_spells {letters : List Char} {word : Text}
    (closed : neverOpens letters = true) (spells : Spells letters word) :
    neverOpens word = true := by
  induction letters generalizing word with
  | nil =>
      obtain rfl := List.eq_nil_of_length_eq_zero spells.length_eq
      rfl
  | cons letter letters ih =>
      obtain ⟨c, rest, rfl, form, others⟩ := eq_cons_of_spells spells
      rw [neverOpens, Bool.and_eq_true] at closed
      rw [neverOpens, ih closed.2 others, Bool.and_true]
      cases isC : isFormOf 'C' c with
      | false => rfl
      | true =>
          obtain rfl := eq_of_isFormOf (by decide) isC form
          cases letters with
          | nil => exact absurd closed.1 (by decide)
          | cons next letters =>
              obtain ⟨d, tail, rfl, formToo, _⟩ := eq_cons_of_spells others
              have noO : isFormOf 'O' d = false := by
                rw [Bool.eq_false_iff]
                intro isO
                obtain rfl := eq_of_isFormOf (by decide) isO formToo
                have follows : (!isFormOf 'C' 'C' || !isFormOf 'O' 'O') = true := closed.1
                exact absurd follows (by decide)
              simp [noO]

/-- A search for the words of a comment statement passes over a text that opens none. -/
theorem misses_of_neverOpens {front : Text} (closed : neverOpens front = true) (back : Text) :
    Misses (fun _ rest => opening rest) none front back := by
  rintro passed c after rfl
  cases read : opening (c :: (after ++ back)) with
  | none => exact read
  | some parts =>
      obtain ⟨words, rest⟩ := parts
      obtain ⟨isOpening, shape⟩ := opening_eq_some_iff.mp read
      obtain ⟨first, second, others, rfl, isC, isO⟩ := isOpening.eq_cons
      obtain ⟨rfl, same⟩ := List.cons.inj shape
      obtain ⟨d, tail, rfl, noO⟩ := exists_of_neverOpens closed isC
      obtain ⟨rfl, _⟩ := List.cons.inj same
      rw [noO] at isO
      cases isO

/-- No comment statement opens in what the recogniser accepts. -/
def OpensNothing (recogniser : Recogniser) : Prop :=
  ∀ text accepted rest, recogniser text = some (accepted, rest) → neverOpens accepted = true

theorem opensNothing_sequence {parts : List Recogniser} (all : ∀ part ∈ parts, OpensNothing part) :
    OpensNothing (sequence parts) := by
  induction parts with
  | nil =>
      intro text accepted rest found
      cases found
      rfl
  | cons part others ih =>
      obtain ⟨here, later⟩ := List.forall_mem_cons.mp all
      intro text accepted rest found
      obtain ⟨left, middle, right, first, second, rfl⟩ := andThen_eq_some_iff.mp found
      exact neverOpens_of_both (here _ _ _ first) (ih later _ _ _ second)

theorem opensNothing_optional {part : Recogniser} (closed : OpensNothing part) :
    OpensNothing (optional part) := by
  intro text accepted rest found
  rcases optional_eq_some_iff.mp found with read | ⟨_, rfl, _⟩
  · exact closed _ _ _ read
  · rfl

theorem opensNothing_keyword {word : String} (closed : neverOpens word.toList = true) :
    OpensNothing (keyword word) := by
  intro text accepted rest found
  exact neverOpens_of_spells closed (keyword_eq_some_iff.mp found).1

theorem opensNothing_blanks : OpensNothing blanks := by
  intro text accepted rest found
  exact neverOpens_of_blank (blanks_eq_some_iff.mp found).2.2.1

end Remark

namespace Header

open Recogniser Remark

theorem opensNothing_create : OpensNothing create := by
  apply opensNothing_sequence
  simp only [List.forall_mem_cons]
  refine ⟨opensNothing_keyword (by decide), opensNothing_blanks, opensNothing_optional ?_,
    fun _ member => absurd member List.not_mem_nil⟩
  apply opensNothing_sequence
  simp only [List.forall_mem_cons]
  exact ⟨opensNothing_keyword (by decide), opensNothing_blanks, opensNothing_keyword (by decide),
    opensNothing_blanks, fun _ member => absurd member List.not_mem_nil⟩

/-- The word of a kind opens none. -/
theorem neverOpens_of_readKind? {text word rest : Text} {kind : Kind}
    (found : readKind? text = some (kind, word, rest)) : neverOpens word = true := by
  unfold readKind? at found
  split at found
  case h_1 read =>
    cases found
    exact opensNothing_keyword (by decide) _ _ _ read
  case h_2 =>
    simp only [Option.map_eq_some_iff, Prod.exists, Prod.mk.injEq] at found
    obtain ⟨_, _, read, _, rfl, rfl⟩ := found
    exact opensNothing_keyword (by decide) _ _ _ read

/-- A header starts with the first letter of `CREATE`. -/
theorem exists_cons_of_create {text opening rest : Text}
    (read : create text = some (opening, rest)) :
    ∃ c inner, opening = c :: inner ∧ c.toNat < 0x80 := by
  obtain ⟨word, _, more, first, _, rfl⟩ := andThen_eq_some_iff.mp read
  have spells := (keyword_eq_some_iff.mp first).1
  rw [show "CREATE".toList = 'C' :: "REATE".toList from rfl] at spells
  obtain ⟨c, inner, rfl, form, _⟩ := eq_cons_of_spells spells
  have ascii := @eq_true_of_isFormOf (fun c => decide (c.toNat < 0x80)) 'C' c (by decide)
    (by decide +kernel) form
  exact ⟨c, inner ++ more, rfl, of_decide_eq_true ascii⟩

/-- **Headers open no remark.** A header starts with a character of one byte, and no comment
statement opens in what follows that. -/
theorem neverOpens_written {text before after : Text} {header : Header}
    (found : find? text = some (before, header, after)) :
    ∃ c inner, header.written = c :: inner ∧ c.toNat < 0x80 ∧ neverOpens inner = true := by
  obtain ⟨rest, _, read⟩ := eq_append_of_search found
  unfold read? at read
  split at read
  case h_1 => cases read
  case h_2 opening others created =>
    split at read
    case h_1 => cases read
    case h_2 kind word spaced named =>
      simp only [Option.map_eq_some_iff, Prod.exists, Prod.mk.injEq] at read
      obtain ⟨gap, _, blank, rfl, _⟩ := read
      have closed : neverOpens (opening ++ word ++ gap) = true :=
        neverOpens_of_both
          (neverOpens_of_both (opensNothing_create _ _ _ created) (neverOpens_of_readKind? named))
          (opensNothing_blanks _ _ _ blank)
      obtain ⟨c, inner, rfl, ascii⟩ := exists_cons_of_create created
      refine ⟨c, inner ++ word ++ gap, by simp, ascii, ?_⟩
      rw [List.cons_append, List.cons_append, neverOpens, Bool.and_eq_true] at closed
      exact closed.2

end Header

namespace Remark

/-- The first comment statement in a text: what stands before it, the statement as written, and its
literal. -/
def match? (text : Text) : Option (Text × Text × Text) :=
  match search (fun _ rest => opening rest) none text with
  | some (before, words, c :: rest) =>
      (findValue? rest).map fun value =>
        (before, words ++ c :: value.passed ++ value.literal ++ value.close, value.literal)
  | _ => none

/-- A remark makes the comment of the first comment statement, if its literal makes any. -/
theorem find?_eq_bind (text : Text) :
    (find? text).map (fun (before, remark, _) => (before, remark)) =
      (match? text).bind fun (before, written, literal) =>
        (unquote? literal).map fun comment => (before, ⟨written, comment⟩) := by
  rw [find?, match?]
  cases search (fun _ rest => opening rest) none text with
  | none => rfl
  | some found =>
      obtain ⟨before, words, rest⟩ := found
      cases rest with
      | nil => rfl
      | cons c rest =>
          dsimp only
          cases findValue? rest with
          | none => rfl
          | some value =>
              simp only [Option.map_map, Option.map_some, Option.bind_some]
              rfl

end Remark

/-- A remark in a text: its byte span and the comment that it makes. -/
structure PlacedRemark where
  first : Nat
  last : Nat
  comment : Text
  deriving DecidableEq, Repr

/-- A remark at a byte offset. -/
def Remark.placed (remark : Remark) (first : Nat) : PlacedRemark :=
  ⟨first, first + remark.written.byteLength, remark.text⟩

namespace Checked

/-- The comment that a literal stands for. -/
def unquote? (literal : Text) : Checked (Option Text) := do
  match ← dollarTag? literal 0 with
  | some tag =>
      return (Text.afterLead? tag literal).bind fun rest =>
        (Text.beforeTail? tag rest).map Text.normalize
  | none => return some (Remark.bareContent literal).undouble.normalize

/-- The value of a comment statement is unquoted without a fault. -/
theorem unquote?_eq (literal : Text) : unquote? literal = .ok (Remark.unquote? literal) := by
  have tagged := dollarTag?_append [] literal
  rw [List.nil_append, Text.byteLength_nil] at tagged
  rw [unquote?, tagged, ok_bind]
  cases opening : RoutineScripts.dollarTag? literal with
  | some tag =>
      rw [Remark.unquote?_of_tag opening]
      rfl
  | none =>
      rw [Remark.unquote?_of_untagged opening]
      rfl

/-- The first remark in what follows an offset. -/
def findRemarkFrom? (text : Text) (start : Nat) : Checked (Option PlacedRemark) :=
  if (text.splitAtByte? start).isSome then do
    let rest ← sliceFrom text start
    match Remark.match? rest with
    | none => return none
    | some (before, written, literal) =>
        let comment ← unquote? literal
        return comment.map fun comment =>
          ⟨start + before.byteLength, start + (before ++ written).byteLength, comment⟩
  else return none

/-- The first remark that starts after the byte at an offset. -/
def findRemark? (text : Text) (offset : Nat) : Checked (Option PlacedRemark) := do
  let start ← succ offset
  findRemarkFrom? text start

/-- A comment statement is found from a boundary on without a fault. -/
theorem findRemarkFrom?_append (front rest : Text) :
    findRemarkFrom? (front ++ rest) front.byteLength =
      .ok ((Remark.find? rest).map fun (before, remark, _) =>
        remark.placed (front ++ before).byteLength) := by
  have found := congrArg
    (Option.map fun (before, remark) => Remark.placed remark (front ++ before).byteLength)
    (Remark.find?_eq_bind rest)
  rw [Option.map_map] at found
  rw [findRemarkFrom?, Text.splitAtByte?_append, if_pos Option.isSome_some, sliceFrom_append,
    ok_bind]
  refine Eq.trans ?_ (congrArg Except.ok found.symm)
  cases Remark.match? rest with
  | none => rfl
  | some parts =>
      obtain ⟨before, written, literal⟩ := parts
      rw [Option.bind_some, Option.map_map]
      dsimp only
      rw [unquote?_eq, ok_bind]
      cases Remark.unquote? literal with
      | none => rfl
      | some comment =>
          simp [Remark.placed, Nat.add_assoc]
          rfl

/-- **Remarks by bytes.** From any offset that is not the largest number, the search makes no access
that fails. -/
theorem findRemark?_eq (text : Text) {offset : Nat} (below : offset < largest) :
    findRemark? text offset =
      .ok ((Remark.findAfter? text offset).map fun (remark, first, _) => remark.placed first) := by
  rw [findRemark?, succ_of_lt below, ok_bind, Remark.findAfter?]
  cases split : text.splitAtByte? (offset + 1) with
  | none =>
      rw [findRemarkFrom?, split]
      rfl
  | some parts =>
      obtain ⟨front, rest⟩ := parts
      obtain ⟨rfl, size⟩ := Text.splitAtByte?_eq_some_iff.mp split
      rw [← size, findRemarkFrom?_append]
      simp [Function.comp_def]

end Checked

end RoutineScripts
