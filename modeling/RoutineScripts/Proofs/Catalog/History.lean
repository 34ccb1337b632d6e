import RoutineScripts.Proofs.Catalog.Fresh

/-!
# Histories of a catalog

A history is a list of operations: definitions are handed over and identifiers are taken out, in any
order. Two things are said of one operation. Handing over a definition records it under the
identifier that is answered and touches no other one (`MemoryCatalog.records_upsert`). Taking out an
identifier succeeds exactly when it is listed, in whatever spelling; it clears that one and touches
no other one, and any other text is refused (`MemoryCatalog.removes`).

The rest follows by going through a history. In the catalog that it leads to, each key is in
canonical form, the entry under it stores the same identifier in braces, and every identifier is
listed once and in order (`MemoryCatalog.Reachable.consistent`). An entry does not change its kind
while it stays in the catalog (`MemoryCatalog.kind_performAll`). All of it is put together in
`MemoryCatalog.history_sound`.
-/

namespace RoutineScripts

namespace MemoryCatalog

variable {catalog : MemoryCatalog} {definition : Definition} {guid : Guid} {entry : Entry}
  {id key : Text}

/-- The catalog after a history. -/
def performAll (catalog : MemoryCatalog) (history : List Operation) : MemoryCatalog :=
  history.foldl perform catalog

/-- A history leads from a reachable catalog to a reachable one. -/
theorem Reachable.performAll (reachable : Reachable catalog) (history : List Operation) :
    Reachable (catalog.performAll history) := by
  induction history generalizing catalog with
  | nil => exact reachable
  | cons operation rest ih =>
      cases operation with
      | upsert definition => exact ih (reachable.upsert definition)
      | remove id => exact ih (reachable.remove id)

/-- Handing over `definition` records it under `guid`. -/
structure Records (catalog : MemoryCatalog) (definition : Definition) (guid : Guid) : Prop where
  answered : (catalog.upsert definition).1.id = guid.braced
  stored : (catalog.upsert definition).2.find? guid.text =
    some (Entry.ofDefinition guid.braced definition)
  others : ∀ key, key ≠ guid.text → (catalog.upsert definition).2.find? key = catalog.find? key
  created : (catalog.upsert definition).1.outcome = .created ↔ catalog.find? guid.text = none
  known : ∀ entry, catalog.find? guid.text = some entry → entry.kind = definition.kind ∧
    ((catalog.upsert definition).1.outcome = .unchanged ↔
      entry.fingerprint = definition.fingerprint)

/-- A definition that keeps its identifier is recorded under it. -/
theorem records_of_guid? (sound : Sound catalog.table) (carried : definition.guid? = some guid)
    (agrees : ∀ entry, catalog.find? guid.text = some entry → entry.kind = definition.kind) :
    catalog.Records definition guid := by
  have handed := upsert_of_guid? sound carried agrees
  refine ⟨by rw [handed], ?_, fun other differs => ?_, ?_,
    fun entry found => ⟨agrees entry found, ?_⟩⟩
  · rw [handed, find?_record, if_pos rfl]
  · rw [handed, find?_record, if_neg (Ne.symm differs)]
  · rw [handed, outcome]
    cases catalog.find? guid.text with
    | none => simp
    | some entry => by_cases same : entry.fingerprint = definition.fingerprint <;> simp [same]
  · rw [handed, outcome, found]
    by_cases same : entry.fingerprint = definition.fingerprint <;> simp [same]

/-- A definition that gets a new identifier is recorded under it. -/
theorem records_of_createFresh (handed : catalog.upsert definition = catalog.createFresh definition)
    (new : catalog.find? (catalog.supply catalog.used).text = none) :
    catalog.Records definition (catalog.supply catalog.used) := by
  have looked := catalog.find?_record (catalog.supply catalog.used) definition
  refine ⟨by rw [handed, createFresh_eq], ?_, fun other differs => ?_, ?_, fun entry found => ?_⟩
  · rw [handed]
    exact (looked _).trans (if_pos rfl)
  · rw [handed]
    exact (looked other).trans (if_neg (Ne.symm differs))
  · simp [handed, createFresh_eq, new]
  · rw [new] at found
    cases found

/-- **One definition.** It is recorded under an identifier that had no entry of another kind, and
it counts as created, unchanged or updated by what was there. -/
theorem records_upsert (sound : Sound catalog.table)
    (new : catalog.TakesNew (.upsert definition)) : ∃ guid, catalog.Records definition guid := by
  rcases upsert_kept_or_fresh sound definition with ⟨guid, carried, agrees, _⟩ | handed
  · exact ⟨guid, records_of_guid? sound carried agrees⟩
  · exact ⟨_, records_of_createFresh handed (new.find?_supply handed)⟩

/-- What is looked for in a table from which the rows of a key were taken out. -/
theorem lookup_filter (key wanted : Text) (table : List (Text × Entry)) :
    (table.filter fun row => row.1 != key).lookup wanted =
      if key = wanted then none else table.lookup wanted := by
  induction table with
  | nil => split <;> rfl
  | cons row rest ih =>
      obtain ⟨name, entry⟩ := row
      rw [List.filter_cons, lookup_row]
      by_cases taken : name = key
      · rw [if_neg (by simpa using taken), ih, taken]
        split <;> rfl
      · rw [if_pos (by simpa using taken), lookup_row, ih]
        by_cases here : key = wanted
        · rw [if_pos here, if_pos here, if_neg fun same => taken (same.trans here.symm)]
        · rw [if_neg here, if_neg here]

/-- **One identifier less.** Only the entry under the key taken out is gone. -/
theorem find?_remove (catalog : MemoryCatalog) (id wanted : Text) :
    (catalog.remove id).2.find? wanted =
      if key? id = some wanted then none else catalog.find? wanted := by
  unfold remove
  cases key? id with
  | none => rfl
  | some key =>
      simp only [Option.some.injEq]
      split
      case isTrue => exact lookup_filter key wanted catalog.table
      case isFalse missing =>
        split
        case isTrue same => rw [← same, Option.not_isSome_iff_eq_none.mp missing]
        case isFalse => rfl

/-- A text that names no key of the catalog is refused. -/
theorem remove_of_find?_eq_none (absent : (key? id).bind catalog.find? = none) :
    catalog.remove id = (.error (.entryNotFound id), catalog) := by
  unfold remove
  cases named : key? id with
  | none => rfl
  | some key =>
      rw [named, Option.bind_some] at absent
      simp only [absent, Option.isSome_none, Bool.false_eq_true, if_false]

/-- A text that names a key of the catalog has its rows taken out. -/
theorem remove_of_find? (named : key? id = some key) (found : catalog.find? key = some entry) :
    catalog.remove id =
      (.ok (), { catalog with table := catalog.table.filter fun row => row.1 != key }) := by
  unfold remove
  simp only [named, found, Option.isSome_some, if_true]

/-- Listed identifiers are those whose keys are found. -/
theorem mem_ids_iff_find? (sound : Sound catalog.table) :
    guid.braced ∈ catalog.ids ↔ (catalog.find? guid.text).isSome = true := by
  rw [ids_eq, List.mem_map]
  constructor
  · rintro ⟨row, member, stored⟩
    obtain ⟨other, keyed, same⟩ := sound.inStep row member
    obtain rfl := Guid.braced_injective (same.symm.trans stored)
    have found := find?_eq_some sound.ordered member
    rw [← keyed, found, Option.isSome_some]
  · intro known
    obtain ⟨entry, found⟩ := Option.isSome_iff_exists.mp known
    exact ⟨_, mem_of_find? found, sound.id_of_find? found⟩

/-- What taking out the identifier that a text names does. The text has to name a listed one; all
others stay, and any other text is refused with an error that names it. -/
structure Removes (catalog : MemoryCatalog) (id : Text) : Prop where
  succeeds : (catalog.remove id).1 = .ok () ↔ ∃ listed ∈ catalog.ids, Guid.same listed id = true
  refused : (∀ listed ∈ catalog.ids, Guid.same listed id = false) →
    catalog.remove id = (.error (.entryNotFound id), catalog)
  cleared : ∀ key, key? id = some key → (catalog.remove id).2.find? key = none
  others : ∀ key, key? id ≠ some key → (catalog.remove id).2.find? key = catalog.find? key
  left : (catalog.remove id).2.ids = catalog.ids.filter fun listed => !Guid.same listed id

/-- An identifier in braces is the same as a text when the text reads as it. -/
theorem same_braced (guid : Guid) (id : Text) :
    Guid.same guid.braced id = true ↔ key? id = some guid.text := by
  unfold Guid.same key?
  rw [Guid.parse?_braced]
  cases Guid.parse? id with
  | none => simp
  | some other =>
      simp only [beq_iff_eq, Option.map_some, Option.some.injEq]
      exact ⟨fun same => same ▸ rfl, fun same => (Guid.eq_of_text_eq same).symm⟩

/-- A text names a listed identifier when the key that it asks for is found. -/
theorem exists_same_iff (sound : Sound catalog.table) :
    (∃ listed ∈ catalog.ids, Guid.same listed id = true) ↔
      ((key? id).bind catalog.find?).isSome = true := by
  constructor
  · rintro ⟨listed, member, same⟩
    have inside := member
    rw [ids_eq] at inside
    obtain ⟨row, there, rfl⟩ := List.mem_map.mp inside
    obtain ⟨guid, _, stored⟩ := sound.inStep row there
    rw [stored] at member same
    rw [(same_braced guid id).mp same, Option.bind_some]
    exact (mem_ids_iff_find? sound).mp member
  · intro known
    obtain ⟨entry, found⟩ := Option.isSome_iff_exists.mp known
    obtain ⟨key, named, there⟩ := Option.bind_eq_some_iff.mp found
    obtain ⟨guid, _, rfl⟩ := exists_guid_of_key? named
    refine ⟨guid.braced, (mem_ids_iff_find? sound).mpr ?_, (same_braced guid id).mpr named⟩
    rw [there, Option.isSome_some]

/-- **One identifier.** Taking it out succeeds when it is listed, takes it off the list, and leaves
all others. -/
theorem removes (sound : Sound catalog.table) (id : Text) : catalog.Removes id := by
  have listed := @exists_same_iff catalog id sound
  refine ⟨?_, fun unlisted => ?_, fun key named => ?_, fun key other => ?_, ?_⟩
  · rw [listed]
    cases found : (key? id).bind catalog.find? with
    | none => simp [remove_of_find?_eq_none found]
    | some entry =>
        obtain ⟨key, named, there⟩ := Option.bind_eq_some_iff.mp found
        simp [remove_of_find? named there]
  · apply remove_of_find?_eq_none
    apply Option.not_isSome_iff_eq_none.mp
    intro known
    obtain ⟨other, member, same⟩ := listed.mpr known
    rw [unlisted other member] at same
    cases same
  · rw [find?_remove, if_pos named]
  · rw [find?_remove, if_neg other]
  · cases found : (key? id).bind catalog.find? with
    | none =>
        rw [remove_of_find?_eq_none found]
        refine (List.filter_eq_self.mpr fun other member => ?_).symm
        rw [Bool.not_eq_true', ← Bool.not_eq_true]
        intro same
        have known := listed.mp ⟨other, member, same⟩
        rw [found] at known
        cases known
    | some entry =>
        obtain ⟨key, named, there⟩ := Option.bind_eq_some_iff.mp found
        rw [remove_of_find? named there, ids_eq, ids_eq, List.filter_map]
        congr 1
        refine List.filter_congr fun row member => ?_
        obtain ⟨guid, keyed, stored⟩ := sound.inStep row member
        have same := same_braced guid id
        rw [named, Option.some.injEq] at same
        rw [Function.comp_apply, stored, keyed]
        by_cases here : guid.text = key
        · rw [same.mpr here.symm, here]
          simp
        · rw [Bool.eq_false_iff.mpr fun found => here (same.mp found).symm]
          simpa using here

/-- What cannot be taken out changes nothing. -/
theorem remove_of_error {error : SyncError} (failed : (catalog.remove id).1 = .error error) :
    (catalog.remove id).2 = catalog := by
  cases found : (key? id).bind catalog.find? with
  | none => rw [remove_of_find?_eq_none found]
  | some entry =>
      obtain ⟨key, named, there⟩ := Option.bind_eq_some_iff.mp found
      rw [remove_of_find? named there] at failed
      cases failed

/-- What the rows of a catalog have in common. A key is read as itself, its entry is found under it
and stores the same identifier in braces. An identifier is listed once, in its place, and it can be
taken out in any letter case, with braces or without. -/
structure Consistent (catalog : MemoryCatalog) : Prop where
  canonical : ∀ row ∈ catalog.table, key? row.1 = some row.1
  stored : ∀ row ∈ catalog.table, row.2.id = '{' :: row.1 ++ ['}']
  found : ∀ row ∈ catalog.table,
    catalog.find? row.1 = some row.2 ∧ catalog.get? row.2.id = some row.2
  distinct : catalog.ids.Nodup
  increasing : catalog.ids.Pairwise fun first second => first.precedes second = true
  removable : ∀ row ∈ catalog.table, ∀ spelling : Text, spelling.asciiUpper = row.1 →
    (catalog.remove spelling).1 = .ok () ∧ (catalog.remove ('{' :: spelling ++ ['}'])).1 = .ok ()

/-- The identifiers of a sound catalog are listed in increasing order. -/
theorem increasing_ids (sound : Sound catalog.table) :
    catalog.ids.Pairwise fun first second => first.precedes second = true := by
  obtain ⟨keys, listed, ordered⟩ := exists_keys sound fun _ => true
  rw [List.filter_eq_self.mpr fun _ _ => rfl] at listed
  rw [listed]
  exact List.pairwise_map.mpr (ordered.imp Guid.precedes_braced)

/-- **Every catalog that operations lead to is consistent.** -/
theorem Reachable.consistent (reachable : Reachable catalog) : catalog.Consistent := by
  have sound := reachable.sound
  have increasing := increasing_ids sound
  have looked : ∀ row ∈ catalog.table, catalog.find? row.1 = some row.2 :=
    fun row member => find?_eq_some sound.ordered member
  refine ⟨fun row member => ?_, fun row member => ?_, fun row member => ⟨looked row member, ?_⟩, ?_,
    increasing, fun row member spelling same => ?_⟩
  · obtain ⟨guid, keyed, _⟩ := sound.inStep row member
    rw [keyed, key?, (Guid.parse?_of_asciiUpper_eq guid.asciiUpper_text).1, Option.map_some]
  · obtain ⟨guid, keyed, stored⟩ := sound.inStep row member
    rw [stored, keyed, Guid.braced]
  · obtain ⟨guid, keyed, stored⟩ := sound.inStep row member
    rw [get?, stored, key?_braced, Option.bind_some, ← keyed, looked row member]
  · refine increasing.imp fun before same => ?_
    rw [same, Text.precedes_irrefl] at before
    cases before
  · obtain ⟨guid, keyed, _⟩ := sound.inStep row member
    rw [keyed] at same
    obtain ⟨bare, braced⟩ := Guid.parse?_of_asciiUpper_eq same
    have found := looked row member
    rw [keyed] at found
    refine ⟨?_, ?_⟩
    · rw [remove_of_find? (by rw [key?, bare, Option.map_some]) found]
    · rw [remove_of_find? (by rw [key?, braced, Option.map_some]) found]

/-- An operation keeps a table sound. -/
theorem Sound.perform (sound : Sound catalog.table) (operation : Operation) :
    Sound (catalog.perform operation).table := by
  cases operation with
  | upsert definition => exact sound.upsert definition
  | remove id => exact sound.remove id

/-- An operation that leaves an entry under a key leaves its kind. -/
theorem kind_perform (sound : Sound catalog.table) {operation : Operation} {next : Entry}
    (new : catalog.TakesNew operation) (found : catalog.find? key = some entry)
    (stays : (catalog.perform operation).find? key = some next) : next.kind = entry.kind := by
  cases operation with
  | upsert definition =>
      obtain ⟨renewed, foundNext, kind⟩ := find?_upsert sound new found
      rw [perform, foundNext] at stays
      cases stays
      exact kind
  | remove id =>
      rw [perform, find?_remove] at stays
      split at stays
      case isTrue => cases stays
      case isFalse =>
        rw [found] at stays
        cases stays
        rfl

/-- **Kinds.** An entry that is there all through a history has the same kind at its end. -/
theorem kind_performAll (sound : Sound catalog.table) {history : List Operation}
    (new : catalog.AllNew history) (found : catalog.find? key = some entry)
    (stays : ∀ part, part <+: history → ((catalog.performAll part).find? key).isSome = true) :
    ∃ last, (catalog.performAll history).find? key = some last ∧ last.kind = entry.kind := by
  induction history generalizing catalog entry with
  | nil => exact ⟨entry, found, rfl⟩
  | cons operation rest ih =>
      obtain ⟨next, foundNext⟩ := Option.isSome_iff_exists.mp
        (stays [operation] (List.prefix_append [operation] rest))
      obtain ⟨last, foundLast, kind⟩ := ih (sound.perform operation) new.2 foundNext
        fun part front => stays (operation :: part) (List.cons_prefix_cons.mpr ⟨rfl, front⟩)
      exact ⟨last, foundLast, kind.trans (kind_perform sound new.1 found foundNext)⟩

/-- **Histories.** A history starts with an empty catalog. After it the catalog is consistent. Any
text that is given to be taken out clears the one identifier that it names, if that is listed, and
is refused without any change if not. Let the identifiers that are taken from the supply be new:
the next definition is recorded under the identifier that is answered, and an entry keeps its kind
for as long as it stays. -/
theorem history_sound (supply : Nat → Guid) (history : List Operation) :
    let catalog := (empty supply).performAll history
    catalog.Consistent ∧
      (∀ id, catalog.Removes id) ∧
      (∀ id error, (catalog.remove id).1 = .error error → (catalog.remove id).2 = catalog) ∧
      (∀ definition, catalog.TakesNew (.upsert definition) →
        ∃ guid, catalog.Records definition guid) ∧
      ∀ later, catalog.AllNew later → ∀ key entry, catalog.find? key = some entry →
        (∀ part, part <+: later → ((catalog.performAll part).find? key).isSome = true) →
        ∃ last, (catalog.performAll later).find? key = some last ∧ last.kind = entry.kind := by
  intro catalog
  have reachable : Reachable catalog := (Reachable.empty supply).performAll history
  have sound := reachable.sound
  exact ⟨reachable.consistent, removes sound, fun _ _ => remove_of_error,
    fun _ => records_upsert sound, fun _ new _ _ => kind_performAll sound new⟩

/-- A function and a procedure that carry one identifier. The procedure gets a new one, and when it
is taken out again the function is still there. -/
theorem history_sound_shared :
    let guid : Guid := ⟨"9968C379-A8C4-4D5A-9F23-4F79E7C3B5E9".toList, by decide +kernel⟩
    let marker := "-- @GUID {9968c379-a8c4-4d5a-9f23-4f79e7c3b5e9}".toList
    let function := Definition.ofScript ⟨[], ⟨.function, "CREATE FUNCTION ".toList⟩, ['f'], [],
      " AS ".toList, .dollar ['$', '$'] marker, [], none, []⟩
    let procedure := Definition.ofScript ⟨[], ⟨.procedure, "CREATE PROCEDURE ".toList⟩, ['p'], [],
      " AS ".toList, .dollar ['$', '$'] marker, [], none, []⟩
    let catalog := (empty Guid.numbered).performAll [.upsert function, .upsert procedure]
    let later := [.remove (Guid.numbered 0).text.asciiLower, .upsert procedure]
    Definition.ofText? function.script.text = some function ∧
      Definition.ofText? procedure.script.text = some procedure ∧
      catalog.ids = [guid.braced, (Guid.numbered 0).braced] ∧ catalog.Consistent ∧
      catalog.Records function guid ∧ catalog.Records procedure (Guid.numbered 1) ∧
      (catalog.remove (Guid.numbered 0).text.asciiLower).1 = .ok () ∧
      (catalog.remove (Guid.numbered 0).text.asciiLower).2.find? (Guid.numbered 0).text = none ∧
      catalog.remove (Guid.numbered 7).text =
        (.error (.entryNotFound (Guid.numbered 7).text), catalog) ∧
      ∃ last, (catalog.performAll later).find? guid.text = some last ∧ last.kind = .function := by
  intro guid marker function procedure catalog later
  obtain ⟨consistent, removes, _, handed, kinds⟩ :=
    history_sound Guid.numbered [.upsert function, .upsert procedure]
  obtain ⟨first, kept⟩ := handed function (by decide +kernel)
  obtain ⟨second, fresh⟩ := handed procedure (by decide +kernel)
  obtain rfl : first = guid :=
    Guid.braced_injective (kept.answered.symm.trans (by decide +kernel))
  obtain rfl : second = Guid.numbered 1 :=
    Guid.braced_injective (fresh.answered.symm.trans (by decide +kernel))
  have cut : Script.ofText? function.script.text = some function.script ∧
      Script.ofText? procedure.script.text = some procedure.script := by decide +kernel
  have stays : ∀ count < 3,
      ((catalog.performAll (later.take count)).find? guid.text).isSome = true := by
    decide +kernel
  have known : (catalog.find? guid.text).map Entry.kind = some .function := by decide +kernel
  obtain ⟨entry, found, isFunction⟩ := Option.map_eq_some_iff.mp known
  obtain ⟨last, foundLast, kind⟩ := kinds later (by decide +kernel) guid.text entry found
    fun part front => by
      rw [List.prefix_iff_eq_take.mp front]
      exact stays _ (Nat.lt_succ_of_le front.length_le)
  have taken := removes (Guid.numbered 0).text.asciiLower
  have listed : ∃ listed ∈ catalog.ids,
      Guid.same listed (Guid.numbered 0).text.asciiLower = true := by decide +kernel
  refine ⟨congrArg (Option.map Definition.ofScript) cut.1,
    congrArg (Option.map Definition.ofScript) cut.2, by decide +kernel, consistent, kept, fresh,
    taken.succeeds.mpr listed, taken.cleared _ (by decide +kernel), ?_, last, foundLast,
    kind.trans isFunction⟩
  exact (removes (Guid.numbered 7).text).refused (by decide +kernel)

end MemoryCatalog

end RoutineScripts
