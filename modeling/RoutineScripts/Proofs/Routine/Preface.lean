import RoutineScripts.Proofs.Routine.Exchange

/-!
# Comments in front of a definition

A header is looked for from the start of a text on, in comments as well. Where none starts in what
stands in front of a text, the text is cut as it is on its own and the front goes into the part
before the header (`Script.ofText?_append_of_not_startsIn`). Where one does start there, it is taken
for the header of the definition (`Script.length_before_lt`). So a line comment has no part in the
definition behind it exactly when no header starts in it (`Definition.rel_ofText?_commentLine_iff`),
which is the case for every comment without the word `CREATE`
(`Header.not_startsIn_commentLine`).
-/

namespace RoutineScripts

/-- A line comment with the line break that ends it. -/
def commentLine (content : Text) : Text :=
  "-- ".toList ++ content ++ ['\n']

namespace Header

open Recogniser

/-- A header starts in `front`, when `back` follows. It may end in `back`. -/
def StartsIn (front back : Text) : Prop :=
  ∃ before rest, front = before ++ rest ∧ rest ≠ [] ∧ (read? (rest ++ back)).isSome = true

/-- No header is found in a text in front that starts none. -/
theorem misses_of_not_startsIn {front back : Text} (quiet : ¬ StartsIn front back) :
    Misses (fun _ rest => read? rest) none front back := by
  intro before c rest split
  refine Option.not_isSome_iff_eq_none.mp fun header => quiet ?_
  exact ⟨before, c :: rest, split, List.cons_ne_nil c rest, header⟩

/-- A front in which no header starts is passed over. -/
theorem find?_append_of_not_startsIn {front back : Text} (quiet : ¬ StartsIn front back) :
    find? (front ++ back) =
      (find? back).map fun (before, header, tail) => (front ++ before, header, tail) := by
  rw [find?, find?, search_append (misses_of_not_startsIn quiet),
    search_previous (fun _ _ _ => rfl) _ none]

/-- The first header is not past a front in which one starts. -/
theorem length_before_lt {front back before tail : Text} {header : Header}
    (starts : StartsIn front back) (found : find? (front ++ back) = some (before, header, tail)) :
    before.length < front.length := by
  obtain ⟨passed, rest, rfl, nonempty, read⟩ := starts
  obtain ⟨others, split, misses, _⟩ := search_eq_some_iff.mp found
  apply Nat.lt_of_not_le
  intro long
  have short : passed.length < before.length := by
    have positive := List.length_pos_iff.mpr nonempty
    rw [List.length_append] at long
    omega
  have refused := misses_iff.mp misses passed (rest ++ back) (by rw [← split]; simp) short
  rw [refused] at read
  cases read

/-- What a header starts with. -/
theorem exists_create_of_read? {text : Text} (read : (read? text).isSome = true) :
    ∃ word rest, text = word ++ rest ∧ Spells "CREATE".toList word := by
  unfold read? at read
  split at read
  case h_1 => cases read
  case h_2 opening rest created =>
    obtain ⟨word, middle, others, spelled, _, _⟩ := andThen_eq_some_iff.mp created
    obtain ⟨spells, whole⟩ := keyword_eq_some_iff.mp spelled
    exact ⟨word, middle, whole, spells⟩

/-- **Ordinary comments.** No header starts in a line comment without the word `CREATE`. -/
theorem not_startsIn_commentLine {content : Text}
    (absent : ∀ front word back, content = front ++ word ++ back → ¬ Spells "CREATE".toList word)
    (text : Text) : ¬ StartsIn (commentLine content) text := by
  rintro ⟨before, rest, split, nonempty, read⟩
  obtain ⟨word, others, whole, spells⟩ := exists_create_of_read? read
  have free (z : Char) (avoided : avoids z "CREATE".toList = true) : z ∉ word :=
    not_mem_of_spells avoided spells
  -- The word holds no line break, so it ends before the comment does.
  obtain ⟨inner, rfl⟩ : ∃ inner, rest = inner ++ ['\n'] := by
    rcases List.eq_nil_or_concat rest with rfl | ⟨inner, last, rfl⟩
    · exact absurd rfl nonempty
    · rw [List.concat_eq_append, commentLine, ← List.append_assoc] at split
      have last : ['\n'] = [last] := List.append_inj_right' split rfl
      exact ⟨inner, by rw [List.concat_eq_append, last]⟩
  obtain ⟨more, rfl, _⟩ := Text.exists_append_of_not_mem
    (show inner ++ '\n' :: text = word ++ others by simpa using whole) (free '\n' (by decide))
  have line : "-- ".toList ++ content = before ++ word ++ more := by
    rw [commentLine, ← List.append_assoc] at split
    rw [List.append_assoc before]
    exact List.append_cancel_right split
  -- It starts with a letter, so it starts after the dashes and the space.
  rcases List.append_eq_append_iff.mp (List.append_assoc before word more ▸ line) with
    ⟨front, _, shape⟩ | ⟨dashes, shape, after⟩
  · exact absent front word more (by rw [shape, List.append_assoc]) spells
  · cases dashes with
    | nil => exact absent [] word more (by simpa using after.symm) spells
    | cons d dashes =>
        cases word with
        | nil => cases spells
        | cons c word =>
            obtain ⟨rfl, _⟩ := List.cons.inj after
            have member : c ∈ "-- ".toList := by
              rw [shape]
              simp
            have dash : c = '-' ∨ c = ' ' := by simpa using member
            rcases dash with rfl | rfl
            · exact free '-' (by decide) List.mem_cons_self
            · exact free ' ' (by decide) List.mem_cons_self

end Header

namespace Script

/-- **Scripts behind other text.** Where no header starts in front of a text, the text is cut as it
is on its own. -/
theorem ofText?_append_of_not_startsIn {front text : Text}
    (quiet : ¬ Header.StartsIn front text) :
    ofText? (front ++ text) =
      (ofText? text).map fun script => { script with before := front ++ script.before } := by
  rw [ofText?, ofText?, Header.find?_append_of_not_startsIn quiet]
  cases Header.find? text with
  | none => rfl
  | some found =>
      obtain ⟨before, header, tail⟩ := found
      simp only [Option.map_some]
      cases (cutStatement tail).1.splitTopLevel? '(' with
      | none => rfl
      | some named =>
          simp only []
          cases Text.splitParens? named.2 with
          | none => rfl
          | some listed => simp only [Option.map_map]; rfl

/-- Where a header starts in front of a text, a script starts in front of it. -/
theorem length_before_lt {front text : Text} {script : Script}
    (starts : Header.StartsIn front text) (found : ofText? (front ++ text) = some script) :
    script.before.length < front.length := by
  obtain ⟨_, _, _, _, headed, _⟩ := ofText?_eq_some_iff.mp found
  exact Header.length_before_lt starts headed

end Script

namespace Definition

/-- One definition is another one with more text in front of it. -/
structure IsBehind (front : Text) (moved definition : Definition) : Prop where
  header : moved.script.before = front ++ definition.script.before
  kind : moved.kind = definition.kind
  name : moved.name = definition.name
  arguments : moved.arguments = definition.arguments
  returns : moved.returns = definition.returns
  language : moved.language = definition.language
  securityDefiner : moved.securityDefiner = definition.securityDefiner
  attributes : moved.attributes = definition.attributes
  body : moved.bodyText = definition.bodyText
  comment : moved.comment = definition.comment
  after : moved.after = definition.after

/-- A script with more text in front of it defines the same. -/
theorem isBehind_ofScript (front : Text) (script : Script) :
    IsBehind front (ofScript { script with before := front ++ script.before })
      (ofScript script) := by
  constructor <;> rfl

/-- **Comments in front of a definition.** A line comment before a text leaves the text with the
same definition, or with none, exactly when no header starts in the comment. The one exception is a
text that defines nothing either way. -/
theorem rel_ofText?_commentLine_iff (content text : Text) :
    Option.Rel (IsBehind (commentLine content)) (ofText? (commentLine content ++ text))
        (ofText? text) ↔
      ¬ Header.StartsIn (commentLine content) text ∨
        ofText? (commentLine content ++ text) = none ∧ ofText? text = none := by
  constructor
  · intro related
    refine Classical.or_iff_not_imp_left.mpr fun starts => ?_
    rw [Classical.not_not] at starts
    generalize moved : ofText? (commentLine content ++ text) = first at related
    generalize ofText? text = second at related
    cases related with
    | none => exact ⟨rfl, rfl⟩
    | some behind =>
        exfalso
        obtain ⟨script, found, rfl⟩ := Option.map_eq_some_iff.mp moved
        have short := Script.length_before_lt starts found
        have long := congrArg List.length behind.header
        rw [List.length_append] at long
        simp only [ofScript] at long
        omega
  · rintro (quiet | ⟨nothing, nothingToo⟩)
    · rw [ofText?, ofText?, Script.ofText?_append_of_not_startsIn quiet, Option.map_map]
      cases Script.ofText? text with
      | none => exact .none
      | some script => exact .some (isBehind_ofScript _ script)
    · rw [nothing, nothingToo]
      exact .none

/-- A comment that mentions a header is not passed over: the definition starts in it, and the
routine gets another name. -/
theorem ofText?_commentLine_header :
    let text := "CREATE FUNCTION f() AS $$1$$;".toList
    let comment := "Run this CREATE FUNCTION script by hand.".toList
    (∃ definition, ofText? text = some definition ∧ definition.name = ⟨none, "f".toList⟩) ∧
      ∃ moved, ofText? (commentLine comment ++ text) = some moved ∧
        moved.name = ⟨some "script by hand".toList, "CREATE FUNCTION f".toList⟩ := by
  intro text comment
  have own : (ofText? text).any (fun definition =>
      decide (definition.name = ⟨none, "f".toList⟩)) = true := by decide +kernel
  have found : (ofText? (commentLine comment ++ text)).any (fun moved =>
      decide (moved.name = ⟨some "script by hand".toList, "CREATE FUNCTION f".toList⟩)) = true := by
    decide +kernel
  obtain ⟨definition, parsed, named⟩ := (Option.any_eq_true _ _).mp own
  obtain ⟨moved, parsedToo, namedToo⟩ := (Option.any_eq_true _ _).mp found
  exact ⟨⟨definition, parsed, of_decide_eq_true named⟩, moved, parsedToo,
    of_decide_eq_true namedToo⟩

end Definition

end RoutineScripts
