import RoutineScripts.Proofs.Marker.Again
import RoutineScripts.Proofs.Marker.Basic

/-!
# What a marked text resolves to

A text resolves to the identifier of its first marker, wherever that stands, while marking a text
edits the body of its script. So the identifier that a text is marked with is the one it resolves to
exactly when no marker with another identifier stands above the place of the edit
(`Marker.resolvesUnlessShadowed_ensure`). The edit makes no marker out of the text around it: a
marker has no second `@`, and the text that is put in front of the new one has no closing brace.
-/

namespace RoutineScripts

namespace Marker

open Recogniser Text

/-- A whole marker with an identifier, as it is read. -/
def Spelling (marker id : Text) : Prop :=
  ∃ opening inner, marker = opening ++ inner ++ ['}'] ∧ IsOpening opening ∧
    Guid.isCanonical inner.asciiUpper = true ∧ id = '{' :: inner ++ ['}']

/-- A marker is read from its own characters, whatever follows them. -/
theorem read?_eq_some_iff_spelling {text id : Text} :
    read? text = some id ↔ ∃ marker rest, text = marker ++ rest ∧ Spelling marker id := by
  rw [read?_eq_some_iff]
  constructor
  · rintro ⟨opening, inner, rest, rfl, isOpening, written, rfl⟩
    exact ⟨_, rest, by simp, opening, inner, rfl, isOpening, Guid.written_append_iff.mp written,
      rfl⟩
  · rintro ⟨_, rest, rfl, opening, inner, rfl, isOpening, canonical, rfl⟩
    exact ⟨opening, inner, rest, by simp, isOpening, Guid.written_append_iff.mpr canonical, rfl⟩

/-- A marker starts with its only `@` and ends with its only closing brace. -/
theorem Spelling.exists_middle {marker id : Text} (spelling : Spelling marker id) :
    ∃ middle, marker = '@' :: (middle ++ ['}']) ∧ '@' ∉ middle ∧ '}' ∉ middle := by
  obtain ⟨_, inner, rfl, ⟨word, gap, rfl, spells, blank⟩, canonical, _⟩ := spelling
  cases word with
  | nil => cases spells
  | cons c letters =>
      obtain rfl := eq_of_isFormOf_at spells.1
      have outside {z : Char} (letter : avoids z ['G', 'U', 'I', 'D'] = true)
          (visible : isBlank z = false) (brace : z ≠ '{') (other : z.toUpper ∉ Guid.alphabet) :
          z ∉ letters ++ gap ++ '{' :: inner := by
        simp only [List.mem_append, List.mem_cons, not_or]
        refine ⟨⟨not_mem_of_spells letter spells.2, fun member => ?_⟩, brace,
          Guid.not_mem_of_isCanonical canonical other⟩
        rw [blank z member] at visible
        cases visible
      exact ⟨letters ++ gap ++ '{' :: inner, by simp,
        outside (by decide) (by decide) (by decide) (by decide),
        outside (by decide) (by decide) (by decide) (by decide)⟩

/-- What follows a text adds to no marker in it, unless a closing brace comes before an `@`. -/
theorem read?_append {part lead rest : Text} (nonempty : part ≠ []) (closed : '}' ∉ lead) :
    read? (part ++ lead ++ '@' :: rest) = read? part := by
  apply Option.ext
  intro id
  rw [read?_eq_some_iff_spelling, read?_eq_some_iff_spelling]
  constructor
  · rintro ⟨marker, after, split, spelling⟩
    obtain ⟨middle, rfl, unopened, _⟩ := spelling.exists_middle
    cases part with
    | nil => exact absurd rfl nonempty
    | cons c part =>
        obtain ⟨rfl, within⟩ := List.cons.inj split
        obtain ⟨more, ended, _⟩ := exists_append_of_not_mem within (by simpa using unopened)
        rw [List.append_assoc] at ended
        obtain ⟨left, rfl, _⟩ := exists_cons_append_of_not_mem ended closed
        exact ⟨_, left, by simp, spelling⟩
  · rintro ⟨marker, after, rfl, spelling⟩
    exact ⟨marker, after ++ lead ++ '@' :: rest, by simp, spelling⟩

/-- A marker starts with an at sign. -/
theorem read?_of_ne {c : Char} {rest : Text} (differs : c ≠ '@') : read? (c :: rest) = none := by
  rw [Option.eq_none_iff_forall_ne_some]
  intro id read
  obtain ⟨_, after, split, spelling⟩ := read?_eq_some_iff_spelling.mp read
  obtain ⟨middle, rfl, _⟩ := spelling.exists_middle
  exact differs (List.cons.inj split).1

/-- The empty text holds no marker. -/
theorem find?_nil : find? [] = none :=
  find?_of_isBlank fun _ member => absurd member List.not_mem_nil

/-- The first marker of a text is at its start, or it is that of the rest. -/
theorem find?_cons (c : Char) (rest : Text) :
    find? (c :: rest) = (read? (c :: rest)).or (find? rest) := by
  rw [find?, search]
  cases read? (c :: rest) with
  | some id => rfl
  | none =>
      simp only [Option.map_map, Option.none_or, find?]
      rw [search_previous (fun _ _ _ => rfl) (some c) none]
      rfl

/-- **The first marker of a text with a second part.** -/
theorem find?_append {lead : Text} (front rest : Text) (unopened : '@' ∉ lead)
    (closed : '}' ∉ lead) :
    find? (front ++ lead ++ '@' :: rest) = (find? front).or (find? ('@' :: rest)) := by
  induction front with
  | nil =>
      rw [find?_nil, Option.none_or, List.nil_append]
      induction lead with
      | nil => rfl
      | cons c lead ih =>
          rw [List.mem_cons, not_or] at unopened closed
          rw [List.cons_append, find?_cons, read?_of_ne (Ne.symm unopened.1), Option.none_or,
            ih unopened.2 closed.2]
  | cons c front ih =>
      have here := @read?_append (c :: front) lead rest (List.cons_ne_nil _ _) closed
      simp only [List.cons_append] at here ⊢
      rw [find?_cons, here, ih, find?_cons c front, Option.or_assoc]

/-- The first marker of a text with a token is one before it, or the token's. -/
theorem find?_token (front back : Text) {lead : Text} (unopened : '@' ∉ lead) (closed : '}' ∉ lead)
    (guid : Guid) :
    find? (front ++ lead ++ (token guid ++ back)) = (find? front).or (some guid.braced) := by
  obtain ⟨tail, shape⟩ := (isMarker_token guid).eq_cons
  have read := read?_token guid back
  rw [shape, List.cons_append] at read ⊢
  rw [find?_append front (tail ++ back) unopened closed, find?_cons, read, Option.some_or]

section

variable {guid : Guid} {plpgsql : Bool} {text id above body before old new after tag : Text}
  {script : Script}

/-- The first marker of an edited text is one above the edit, or else the new one. -/
theorem Edit.find?_append (edit : Edit guid plpgsql body before old new after)
    (above below : Text) :
    find? (above ++ before ++ (new ++ below)) =
      (find? (above ++ before)).or (some guid.braced) := by
  rcases edit.replaces_or_inserts with ⟨_, rfl⟩ | ⟨_, _, lineBreak, indent, inserts⟩
  · simpa using find?_token (above ++ before) below (List.not_mem_nil : '@' ∉ [])
      List.not_mem_nil guid
  · have outside {z : Char} (visible : isIndent z = false) (ends : z ≠ '\n')
        (dashed : z ∉ "-- ".toList) : z ∉ lineBreak ++ indent ++ "-- ".toList := by
      simp only [List.mem_append, not_or]
      refine ⟨⟨inserts.not_mem_lineBreak ends, fun member => ?_⟩, dashed⟩
      rw [inserts.indented z member] at visible
      cases visible
    have found := find?_token (above ++ before) (" - ".toList ++ notice ++ '\n' :: below)
      (outside (by decide) (by decide) (by decide)) (outside (by decide) (by decide) (by decide))
      guid
    rw [← found, inserts.shape, line_eq]
    simp

/-- Marking the text with an identifier changes it below `above`, which its normalised form starts
with. -/
def EditedBelow (text id above : Text) : Prop :=
  ∃ guid script tag body before old new after,
    Guid.parse? id = some guid ∧
    Script.ofText? text.normalize = some script ∧
    script.body = .dollar tag body ∧
    Edit guid (declaresPlpgsql text) body before old new after ∧
    above = script.prologue ++ tag ++ before

/-- **Shadowed identifiers.** A marker with another identifier stands above the place where marking
changes the text. -/
def Shadowed (text id : Text) : Prop :=
  ∃ above other, EditedBelow text id above ∧ find? above = some other ∧
    Guid.same other id = false

/-- The result of marking a text resolves to some identifier, and to the one it was marked with
unless that is shadowed. -/
def ResolvesUnlessShadowed (result text id : Text) : Prop :=
  ∃ found, find? result = some found ∧ (Guid.same found id = true ↔ ¬ Shadowed text id)

/-- A text that marking changes is changed below some part of it. -/
theorem exists_editedBelow (changes : ensure text id ≠ text) :
    ∃ above, EditedBelow text id above := by
  cases identified : Guid.parse? id with
  | none =>
      rw [ensure, identified] at changes
      exact absurd rfl changes
  | some guid =>
      rw [ensure_of_parse? identified] at changes
      cases placed : place? text guid with
      | none =>
          rw [placed] at changes
          exact absurd rfl changes
      | some marked =>
          obtain ⟨script, tag, body, before, old, new, after, parsed, dollar, edit, _⟩ :=
            place?_eq_some_iff.mp placed
          exact ⟨_, guid, script, tag, body, before, old, new, after, identified, parsed, dollar,
            edit, rfl⟩

/-- **The first marker of a marked text** is one above the edit, or else the new one. -/
theorem EditedBelow.find?_ensure (edited : EditedBelow text id above) :
    ∃ guid, Guid.parse? id = some guid ∧
      find? (ensure text id) = (find? above).or (some guid.braced) := by
  obtain ⟨guid, script, tag, body, before, old, new, after, identified, parsed, dollar, edit,
    rfl⟩ := edited
  refine ⟨guid, identified, ?_⟩
  rw [← edit.find?_append (script.prologue ++ tag) (after ++ tag ++ script.epilogue),
    ← find?_normalize, normalize_ensure identified parsed dollar edit, Script.splice]
  simp

/-- In a shadowed text, marking leaves another identifier in front. -/
theorem Shadowed.exists_find? (shadowed : Shadowed text id) :
    ∃ other, find? (ensure text id) = some other ∧ Guid.same other id = false := by
  obtain ⟨above, other, edited, earlier, differs⟩ := shadowed
  obtain ⟨_, _, first⟩ := edited.find?_ensure
  rw [earlier, Option.some_or] at first
  exact ⟨other, first, differs⟩

/-- In a text that is edited below and not shadowed, marking makes the identifier the first one. -/
theorem EditedBelow.exists_find? (edited : EditedBelow text id above)
    (plain : ¬ Shadowed text id) :
    ∃ found, find? (ensure text id) = some found ∧ Guid.same found id = true := by
  obtain ⟨guid, identified, first⟩ := edited.find?_ensure
  cases earlier : find? above with
  | none =>
      rw [earlier, Option.none_or] at first
      refine ⟨guid.braced, first, ?_⟩
      rw [Guid.same, Guid.parse?_braced, identified]
      exact beq_self_eq_true guid
  | some other =>
      rw [earlier, Option.some_or] at first
      cases agrees : Guid.same other id with
      | true => exact ⟨other, first, agrees⟩
      | false => exact absurd ⟨above, other, edited, earlier, agrees⟩ plain

/-- **Marked texts resolve.** A text that marking changes carries a marker then, and unless another
identifier shadows it, it is the one that the text was marked with. -/
theorem resolvesUnlessShadowed_ensure (changes : ensure text id ≠ text) :
    ResolvesUnlessShadowed (ensure text id) text id := by
  obtain ⟨above, edited⟩ := exists_editedBelow changes
  by_cases shadowed : Shadowed text id
  · obtain ⟨other, first, differs⟩ := shadowed.exists_find?
    refine ⟨other, first, fun same => ?_, fun plain => absurd shadowed plain⟩
    rw [differs] at same
    cases same
  · obtain ⟨found, first, same⟩ := edited.exists_find? shadowed
    exact ⟨found, first, fun _ => shadowed, fun _ => same⟩

end

end Marker

end RoutineScripts
