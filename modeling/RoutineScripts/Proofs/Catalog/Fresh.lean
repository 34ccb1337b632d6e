import RoutineScripts.Proofs.Catalog.Carried

/-!
# New identifiers

A definition keeps the identifier it carries or gets the next one of the supply
(`MemoryCatalog.upsert_kept_or_fresh`). When each identifier that is taken from the supply is new at
that moment (`MemoryCatalog.AllNew`), handing over definitions leaves the kind of every entry
(`MemoryCatalog.find?_afterAll`), so that at the end the entry under an identifier is of the kind of
every definition that was answered with it (`MemoryCatalog.exists_entry_of_answer`).
-/

namespace RoutineScripts

namespace MemoryCatalog

/-- What is done to a catalog. -/
inductive Operation
  | upsert (definition : Definition)
  | remove (id : Text)

/-- The catalog after an operation. -/
def perform (catalog : MemoryCatalog) : Operation → MemoryCatalog
  | .upsert definition => (catalog.upsert definition).2
  | .remove id => (catalog.remove id).2

/-- If an operation takes an identifier from the supply, no entry has it. -/
def TakesNew (catalog : MemoryCatalog) (operation : Operation) : Prop :=
  (catalog.perform operation).used ≠ catalog.used →
    catalog.find? (catalog.supply catalog.used).text = none

instance (catalog : MemoryCatalog) (operation : Operation) :
    Decidable (catalog.TakesNew operation) :=
  inferInstanceAs (Decidable (_ → _))

/-- Every identifier that operations take from the supply is new when it is taken. -/
def AllNew : MemoryCatalog → List Operation → Prop
  | _, [] => True
  | catalog, operation :: rest =>
      catalog.TakesNew operation ∧ (catalog.perform operation).AllNew rest

instance decidableAllNew : (catalog : MemoryCatalog) → (operations : List Operation) →
    Decidable (catalog.AllNew operations)
  | _, [] => isTrue trivial
  | catalog, operation :: rest =>
      have := decidableAllNew (catalog.perform operation) rest
      inferInstanceAs (Decidable (_ ∧ _))

variable {catalog : MemoryCatalog} {definition : Definition} {definitions : List Definition}
  {guid : Guid} {key : Text} {entry : Entry}

/-- Two lists of definitions are all new one after the other. -/
theorem allNew_append (catalog : MemoryCatalog) (first second : List Definition) :
    catalog.AllNew ((first ++ second).map .upsert) ↔
      catalog.AllNew (first.map .upsert) ∧
        (catalog.afterAll first).AllNew (second.map .upsert) := by
  induction first generalizing catalog with
  | nil => exact (iff_of_eq (true_and _)).symm
  | cons definition first ih => exact (and_congr_right fun _ => ih _).trans and_assoc.symm

/-- **Two kinds of answers.** A definition keeps the identifier it carries, which no entry of
another kind has, or it gets the next identifier of the supply. -/
theorem upsert_kept_or_fresh (sound : Sound catalog.table) (definition : Definition) :
    (∃ guid, definition.guid? = some guid ∧
      (∀ entry, catalog.find? guid.text = some entry → entry.kind = definition.kind) ∧
      catalog.upsert definition =
        (⟨guid.braced, catalog.outcome guid definition⟩, catalog.record guid definition)) ∨
      catalog.upsert definition = catalog.createFresh definition := by
  cases carried : definition.guid? with
  | none =>
      right
      unfold upsert
      rw [not_requested_of_guid? carried]
  | some guid =>
      by_cases agrees : ∀ entry, catalog.find? guid.text = some entry →
        entry.kind = definition.kind
      · exact Or.inl ⟨guid, rfl, agrees, upsert_of_guid? sound carried agrees⟩
      · right
        simp only [Classical.not_forall] at agrees
        obtain ⟨entry, found, differs⟩ := agrees
        unfold upsert
        rw [requested_of_guid? carried]
        simp only [found, if_neg differs]

/-- The next identifier of the supply is new for a definition that gets it. -/
theorem TakesNew.find?_supply (new : catalog.TakesNew (.upsert definition))
    (handed : catalog.upsert definition = catalog.createFresh definition) :
    catalog.find? (catalog.supply catalog.used).text = none := by
  apply new
  rw [perform, handed]
  exact Nat.succ_ne_self _

/-- Handing over a definition leaves the kind of every entry. -/
theorem find?_upsert (sound : Sound catalog.table) (new : catalog.TakesNew (.upsert definition))
    (found : catalog.find? key = some entry) :
    ∃ renewed, (catalog.upsert definition).2.find? key = some renewed ∧
      renewed.kind = entry.kind := by
  rcases upsert_kept_or_fresh sound definition with ⟨answered, _, agrees, handed⟩ | handed
  · rw [handed, find?_record]
    by_cases here : answered.text = key
    · subst here
      exact ⟨_, if_pos rfl, (agrees entry found).symm⟩
    · exact ⟨entry, (if_neg here).trans found, rfl⟩
  · have looked := catalog.find?_record (catalog.supply catalog.used) definition key
    have other : (catalog.supply catalog.used).text ≠ key := by
      intro same
      have free := new.find?_supply handed
      rw [same, found] at free
      cases free
    rw [if_neg other] at looked
    rw [handed]
    exact ⟨entry, looked.trans found, rfl⟩

/-- **Entries keep their kind** while definitions are handed over. -/
theorem find?_afterAll (sound : Sound catalog.table)
    (new : catalog.AllNew (definitions.map .upsert)) (found : catalog.find? key = some entry) :
    ∃ renewed, (catalog.afterAll definitions).find? key = some renewed ∧
      renewed.kind = entry.kind := by
  induction definitions generalizing catalog entry with
  | nil => exact ⟨entry, found, rfl⟩
  | cons definition rest ih =>
      obtain ⟨next, foundNext, kindNext⟩ := find?_upsert sound new.1 found
      obtain ⟨last, foundLast, kindLast⟩ := ih (sound.upsert definition) new.2 foundNext
      exact ⟨last, foundLast, kindLast.trans kindNext⟩

/-- A definition has its entry under the identifier that is answered. -/
theorem exists_find?_upsert (sound : Sound catalog.table) (definition : Definition) :
    ∃ guid : Guid, (catalog.upsert definition).1.id = guid.braced ∧
      (catalog.upsert definition).2.find? guid.text =
        some (Entry.ofDefinition guid.braced definition) := by
  rcases upsert_kept_or_fresh sound definition with ⟨guid, _, _, handed⟩ | handed
  · refine ⟨guid, by rw [handed], ?_⟩
    rw [handed, find?_record, if_pos rfl]
  · refine ⟨catalog.supply catalog.used, by rw [handed, createFresh_eq], ?_⟩
    rw [handed]
    exact (catalog.find?_record (catalog.supply catalog.used) definition _).trans (if_pos rfl)

/-- Every definition that was answered has an entry of its kind under the identifier answered. -/
theorem exists_entry_of_answer (sound : Sound catalog.table)
    (new : catalog.AllNew (definitions.map .upsert)) {answer : Definition × Upsert}
    (member : answer ∈ catalog.answers definitions) :
    ∃ (guid : Guid) (entry : Entry), answer.2.id = guid.braced ∧
      (catalog.afterAll definitions).find? guid.text = some entry ∧
      entry.kind = answer.1.kind := by
  induction definitions generalizing catalog with
  | nil => cases member
  | cons definition rest ih =>
      rcases List.mem_cons.mp member with rfl | later
      · obtain ⟨guid, answered, found⟩ := exists_find?_upsert sound definition
        obtain ⟨entry, foundLast, kind⟩ := find?_afterAll (sound.upsert definition) new.2 found
        exact ⟨guid, entry, answered, foundLast, kind⟩
      · exact ih (sound.upsert definition) new.2 later

end MemoryCatalog

end RoutineScripts
