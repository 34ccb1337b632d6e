import RoutineScripts.Proofs.Catalog.Carried
import RoutineScripts.Proofs.Marker.Resolution

/-!
# Identifiers in markers and on their own

A marker is looked for in a text, with its identifier between braces. An identifier on its own is
read from a whole value, with or without braces. The two readers accept the same identifiers: what
a marker holds is read as its form in capitals (`Marker.parse?_of_find?`), so a catalog disregards
no marker, and the marker of whatever can be read is found again behind any text without `@`
(`Marker.find?_token_of_not_mem`). The two directions, and what they make of comparing identifiers,
are put together in `Marker.identifiers_agree`.
-/

namespace RoutineScripts

namespace Guid

theorem same_comm (left right : Text) : same left right = same right left := by
  rw [Bool.eq_iff_iff, same_iff, same_iff]
  simp only [and_comm]

theorem same_trans {first second third : Text} (before : same first second = true)
    (after : same second third = true) : same first third = true := by
  obtain ⟨guid, read, also⟩ := same_iff.mp before
  obtain ⟨other, again, last⟩ := same_iff.mp after
  obtain rfl : guid = other := Option.some.inj (also.symm.trans again)
  exact same_iff.mpr ⟨guid, read, last⟩

/-- A value is the same as itself when it names an identifier. -/
theorem same_self_iff {value : Text} : same value value = true ↔ (parse? value).isSome = true := by
  rw [same_iff, Option.isSome_iff_exists]
  simp only [and_self]

end Guid

namespace Marker

/-- What a marker holds is read as its form in capitals. -/
theorem parse?_of_find? {text id : Text} (found : find? text = some id) :
    ∃ (inner : Text) (guid : Guid), id = '{' :: inner ++ ['}'] ∧ Guid.parse? id = some guid ∧
      guid.text = inner.asciiUpper := by
  obtain ⟨_, _, _, read⟩ := exists_read?_of_find? found
  obtain ⟨_, inner, _, _, _, written, rfl⟩ := read?_eq_some_iff.mp read
  have canonical := Guid.written_append_iff.mp written
  exact ⟨inner, _, rfl, Guid.parse?_of_isCanonical canonical, rfl⟩

/-- A text without an at sign holds no marker. -/
theorem find?_of_not_mem {text : Text} (absent : '@' ∉ text) : find? text = none := by
  apply Option.eq_none_iff_forall_ne_some.mpr
  intro id found
  exact absent (mem_of_find? found).1

/-- A marker is found behind text that cannot start one. -/
theorem find?_token_of_not_mem {front : Text} (absent : '@' ∉ front) (guid : Guid) (back : Text) :
    find? (front ++ token guid ++ back) = some guid.braced := by
  have found := find?_token front back (List.not_mem_nil : '@' ∉ []) List.not_mem_nil guid
  rw [find?_of_not_mem absent, Option.none_or, List.append_nil] at found
  rw [List.append_assoc, found]

/-- **The two readers of identifiers agree.** What is found in a marker is an identifier in braces.
It is read as its form in capitals, and a definition with that marker is handed over under it to a
catalog, whatever was done to that before, unless it has the identifier for a routine of the other
kind. Conversely the canonical form of whatever is read is read as itself, in any letter case, with
braces and without; its form with braces is found in a marker with it, behind any text without `@`
and before any text. To name the same identifier is symmetric and transitive, and reflexive for the
values that name one. -/
theorem identifiers_agree :
    (∀ text id, find? text = some id →
      ∃ (inner : Text) (guid : Guid), id = '{' :: inner ++ ['}'] ∧ Guid.parse? id = some guid ∧
        guid.text = inner.asciiUpper ∧
        ∀ (catalog : MemoryCatalog) (definition : Definition), catalog.Reachable →
          Definition.ofText? text = some definition →
          (∀ entry, catalog.find? guid.text = some entry → entry.kind = definition.kind) →
          (catalog.upsert definition).1.id = guid.braced) ∧
    (∀ value guid, Guid.parse? value = some guid →
      Guid.parse? guid.text = some guid ∧ Guid.parse? ('{' :: guid.text ++ ['}']) = some guid ∧
      (∀ spelling : Text, spelling.asciiUpper = guid.text.asciiUpper →
        Guid.parse? spelling = some guid ∧ Guid.parse? ('{' :: spelling ++ ['}']) = some guid) ∧
      (Guid.parse? value).map Guid.braced = some ('{' :: guid.text ++ ['}']) ∧
      ∀ front back, '@' ∉ front →
        find? (front ++ "@GUID ".toList ++ ('{' :: guid.text ++ ['}']) ++ back) =
          some ('{' :: guid.text ++ ['}'])) ∧
    (∀ left right, Guid.same left right = Guid.same right left) ∧
    (∀ first second third, Guid.same first second = true → Guid.same second third = true →
      Guid.same first third = true) ∧
    ∀ value, Guid.same value value = true ↔ (Guid.parse? value).isSome = true := by
  refine ⟨fun text id found => ?_, fun value guid read => ?_, Guid.same_comm,
    fun _ _ _ => Guid.same_trans, fun _ => Guid.same_self_iff⟩
  · obtain ⟨inner, guid, shape, read, upper⟩ := parse?_of_find? found
    refine ⟨inner, guid, shape, read, upper, fun catalog definition reachable parsed agrees => ?_⟩
    obtain ⟨script, cut, rfl⟩ := Option.map_eq_some_iff.mp parsed
    have carried : (Definition.ofScript script).guid? = some guid := by
      rw [← Script.text_of_ofText? cut] at found
      rw [Definition.guid?, Definition.ofScript, found, Option.bind_some, read]
    rw [MemoryCatalog.upsert_of_guid? reachable.sound carried agrees]
  · have upper := guid.asciiUpper_text
    obtain ⟨bare, braced⟩ := Guid.parse?_of_asciiUpper_eq upper
    refine ⟨bare, braced, fun spelling same => ?_, ?_, fun front back absent => ?_⟩
    · exact Guid.parse?_of_asciiUpper_eq (same.trans upper)
    · rw [read, Option.map_some, Guid.braced]
    · have found := find?_token_of_not_mem absent guid back
      rwa [token, Guid.braced, ← List.append_assoc] at found

/-- A marker in lower case above a script is one for the catalog, and a value in lower case with a
stray brace is found again once it is written into a marker. -/
theorem identifiers_agree_lower :
    let guid : Guid := ⟨"1F0C2B7E-53D4-4A6B-8E19-7D02C4A9B365".toList, by decide +kernel⟩
    let text := "-- @Guid\t\x7b1f0c2b7e-53d4-4a6b-8e19-7d02c4a9b365\x7d\n".toList
      ++ "CREATE FUNCTION f() AS $$1$$;".toList
    let value := " 1f0c2b7e-53d4-4a6b-8e19-7d02c4a9b365\x7d\n".toList
    Guid.parse? value = some guid ∧
      find? ("\x7dſ \n".toList ++ "@GUID ".toList ++ ('{' :: guid.text ++ ['}']) ++ "@".toList) =
        some ('{' :: guid.text ++ ['}']) ∧
      Guid.same value value = true ∧
      ∃ definition, Definition.ofText? text = some definition ∧
        ((MemoryCatalog.empty Guid.numbered).upsert definition).1.id = guid.braced := by
  intro guid text value
  obtain ⟨held, written, _, _, reflexive⟩ := identifiers_agree
  have read : Guid.parse? value = some guid := by decide +kernel
  have found : find? text = some "\x7b1f0c2b7e-53d4-4a6b-8e19-7d02c4a9b365\x7d".toList := by
    decide +kernel
  have parses : (Definition.ofText? text).isSome = true := by decide +kernel
  obtain ⟨definition, parsed⟩ := Option.isSome_iff_exists.mp parses
  obtain ⟨inner, other, shape, again, _, carried⟩ := held text _ found
  have same : Guid.parse? "\x7b1f0c2b7e-53d4-4a6b-8e19-7d02c4a9b365\x7d".toList = some guid := by
    decide +kernel
  obtain rfl : guid = other := Option.some.inj (same.symm.trans again)
  refine ⟨read, ?_, (reflexive value).mpr (by rw [read]; rfl), definition, parsed, ?_⟩
  · exact (written value guid read).2.2.2.2 _ _ (by decide)
  · refine carried _ definition (.empty Guid.numbered) parsed fun entry known => ?_
    cases known

end Marker

end RoutineScripts
