import RoutineScripts.Proofs.Catalog.Carried
import RoutineScripts.Proofs.Marker.Overwrite
import RoutineScripts.Proofs.Marker.Resolution
import RoutineScripts.Proofs.Routine.Definition
import RoutineScripts.Proofs.Routine.Suffix

/-!
# Marked texts carry their identifier

Where a marker has a place in a text (`Marker.hasPlace`), the marked text defines a routine of the
same kind and carries the identifier that it was marked with (`Marker.exists_ofText?_ensure`). There
are two conditions: no other marker shadows the new one, as none does in a text without a marker
(`Marker.not_shadowed_of_find?`), and marking leaves a script, as it does where no comment statement
opens before the end of the body (`Marker.isSome_ofText?_ensure`).
-/

namespace RoutineScripts

/-- The kind of a definition is that of its header. -/
theorem Definition.kind_ofScript (script : Script) :
    (Definition.ofScript script).kind = script.header.kind :=
  Options.kind_attributes _ _

namespace Marker

open Text

/-- Whether a marker has a place in the script of a text: whether the body is dollar-quoted and a
line of it starts with a marker already, or the text does not declare the language `plpgsql`, or the
body has a block. -/
def hasPlace (text : Text) : Bool :=
  match (Script.ofText? text.normalize).map Script.body with
  | some (.dollar _ body) =>
      (splitExisting? body).isSome || !declaresPlpgsql text || (splitBegin? body).isSome
  | _ => false

variable {text id : Text} {guid : Guid}

/-- A marker has a place exactly when one can be placed, whatever its identifier. -/
theorem hasPlace_eq_isSome (text : Text) (guid : Guid) :
    hasPlace text = (place? text guid).isSome := by
  unfold hasPlace place?
  cases Script.ofText? text.normalize with
  | none => rfl
  | some script =>
      simp only [Option.map_some]
      cases script.body with
      | quoted => rfl
      | dollar tag body =>
          simp only [Option.isSome_map, declaresPlpgsql_normalize]
          unfold updateBody?
          cases splitExisting? body with
          | some _ => rfl
          | none => cases declaresPlpgsql text <;> simp

/-- Where a marker has a place, it is put there by one edit of the body. -/
theorem exists_edit_of_hasPlace (placeable : hasPlace text = true) (guid : Guid) :
    ∃ script tag body before old new after,
      Script.ofText? text.normalize = some script ∧ script.body = .dollar tag body ∧
        Edit guid (declaresPlpgsql text) body before old new after := by
  rw [hasPlace_eq_isSome text guid] at placeable
  obtain ⟨marked, placed⟩ := Option.isSome_iff_exists.mp placeable
  obtain ⟨script, tag, body, before, old, new, after, parsed, dollar, edit, _⟩ :=
    place?_eq_some_iff.mp placed
  exact ⟨script, tag, body, before, old, new, after, parsed, dollar, edit⟩

/-- A text that is marked stays a script where no comment statement opens between the header and the
end of the body. -/
theorem isSome_ofText?_ensure (identified : Guid.parse? id = some guid)
    (placeable : hasPlace text = true)
    (quiet : ∀ script ∈ Script.ofText? text.normalize,
      Remark.OpensNowhere text.normalize script.before.length
        (script.prologue ++ script.body.written).length) :
    (Definition.ofText? (ensure text id)).isSome = true := by
  obtain ⟨script, tag, body, before, old, new, after, parsed, dollar, edit⟩ :=
    exists_edit_of_hasPlace placeable guid
  have repels := edit.repels .lf
  rw [LineEnding.apply_lf] at repels
  have again := Script.ofText?_edit parsed (dollar.trans (by rw [← edit.split]))
    (quiet script parsed) (edit.not_mem (by simp)) repels
  rw [← normalize_ensure identified parsed dollar edit, Script.ofText?_normalize] at again
  obtain ⟨marked, found, _⟩ := Option.map_eq_some_iff.mp again
  rw [Definition.ofText?, found]
  rfl

/-- **Marked texts carry their identifier.** When a marker has a place in a text, no other marker
shadows it, and the marked text is still a script, it defines a routine of the same kind, with the
identifier that it was marked with. -/
theorem exists_ofText?_ensure {definition : Definition} (identified : Guid.parse? id = some guid)
    (defined : Definition.ofText? text = some definition) (placeable : hasPlace text = true)
    (plain : ¬ Shadowed text id) (whole : (Definition.ofText? (ensure text id)).isSome = true) :
    ∃ marked, Definition.ofText? (ensure text id) = some marked ∧
      marked.kind = definition.kind ∧ marked.guid? = some guid := by
  obtain ⟨script, tag, body, before, old, new, after, parsed, dollar, edit⟩ :=
    exists_edit_of_hasPlace placeable guid
  have edited : EditedBelow text id (script.prologue ++ tag ++ before) :=
    ⟨guid, script, tag, body, before, old, new, after, identified, parsed, dollar, edit, rfl⟩
  obtain ⟨marker, first, same⟩ := edited.exists_find? plain
  obtain ⟨other, named, read⟩ := Guid.same_iff.mp same
  obtain rfl : guid = other := Option.some.inj (identified.symm.trans read)
  obtain ⟨_, found⟩ := Option.isSome_iff_exists.mp whole
  obtain ⟨marked, reads, rfl⟩ := Option.map_eq_some_iff.mp found
  obtain ⟨source, written, rfl⟩ := Option.map_eq_some_iff.mp defined
  refine ⟨_, found, ?_, ?_⟩
  · -- The body is all that marking changes, so both scripts have the same header.
    have again : Script.ofText? (script.splice (tag ++ (before ++ new ++ after) ++ tag)) =
        some marked.normalize := by
      rw [← normalize_ensure identified parsed dollar edit, Script.ofText?_normalize, reads]
      rfl
    have exchanged := (Script.opensBody_of_ofText? parsed dollar).1.eq_of_ofText?
      (edit.firstAfter parsed dollar) again
    rw [Script.ofText?_normalize, written] at parsed
    have kinds : marked.normalize.header.kind = source.normalize.header.kind := by
      rw [exchanged, ← Option.some.inj parsed]
    rw [Definition.kind_ofScript, Definition.kind_ofScript]
    exact kinds
  · have carried : (Definition.ofScript marked).marker = some marker := by
      rw [← first, ← Script.text_of_ofText? reads]
      rfl
    rw [Definition.guid?, carried, Option.bind_some, named]

/-- A text without a marker has none in its parts. -/
theorem find?_eq_none_of_append {front back : Text} (unmarked : find? (front ++ back) = none) :
    find? front = none := by
  cases found : find? front with
  | none => rfl
  | some id =>
      obtain ⟨passed, rest, shape, read⟩ := exists_read?_of_find? found
      obtain ⟨marker, after, rfl, spelling⟩ := read?_eq_some_iff_spelling.mp read
      have readToo : read? (marker ++ after ++ back) = some id :=
        read?_eq_some_iff_spelling.mpr ⟨marker, after ++ back, by simp, spelling⟩
      rw [find?, Option.map_eq_none_iff, search_eq_none_iff_forall] at unmarked
      have refused := unmarked passed (marker ++ after ++ back) (by rw [shape]; simp)
      rw [readToo] at refused
      cases refused

/-- Nothing shadows the first marker of a text. -/
theorem not_shadowed_of_find? (unmarked : find? text = none) : ¬ Shadowed text id := by
  rintro ⟨_, other, ⟨guid, script, tag, body, before, old, new, after, _, parsed, dollar, edit,
    rfl⟩, found, _⟩
  have whole : text.normalize =
      script.prologue ++ tag ++ before ++ (old ++ after ++ tag ++ script.epilogue) := by
    rw [← Script.text_of_ofText? parsed, Script.text, dollar, Literal.written, edit.split]
    simp
  rw [← find?_normalize, whole] at unmarked
  rw [find?_eq_none_of_append unmarked] at found
  cases found

/-- Marking a text leaves what it starts with. -/
theorem any_head?_ensure {test : Char → Bool} (alike : test '\r' = test '\n') (text id : Text) :
    (ensure text id).head?.any test = text.head?.any test := by
  by_cases changes : ensure text id = text
  · rw [changes]
  · obtain ⟨_, guid, script, tag, body, before, old, new, after, identified, parsed, dollar, edit,
      _⟩ := exists_editedBelow changes
    rw [← any_head?_normalize alike, normalize_ensure identified parsed dollar edit,
      ← any_head?_normalize alike text, ← Script.text_of_ofText? parsed, Script.text,
      Script.splice, Script.prologue]
    simp

end Marker

end RoutineScripts
