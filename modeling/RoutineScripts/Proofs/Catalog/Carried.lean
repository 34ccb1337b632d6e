import RoutineScripts.Proofs.Catalog.Memory
import RoutineScripts.Proofs.Marker.Basic

/-!
# Definitions that carry an identifier

A definition with a marker names an identifier (`Definition.exists_guid?`). When the catalog has no
entry under it, or one of the same kind, the definition keeps it, and handing the definition over
changes nothing but the entry under that identifier (`MemoryCatalog.upsert_of_guid?`,
`MemoryCatalog.find?_record`). When the entry is that of the definition already, nothing changes at
all (`MemoryCatalog.upsert_of_find?`).
-/

namespace RoutineScripts

/-- What a marker holds can be read as an identifier. -/
theorem Marker.exists_parse?_of_find? {text id : Text} (found : find? text = some id) :
    ∃ guid, Guid.parse? id = some guid := by
  obtain ⟨_, _, _, read⟩ := exists_read?_of_find? found
  obtain ⟨_, inner, _, _, _, written, rfl⟩ := read?_eq_some_iff.mp read
  exact Guid.parse?_of_written written

namespace Definition

/-- The identifier that a definition carries. -/
def guid? (definition : Definition) : Option Guid :=
  definition.marker.bind Guid.parse?

/-- A marked definition that was parsed carries an identifier. -/
theorem exists_guid? {text : Text} {definition : Definition}
    (parsed : ofText? text = some definition) (marked : definition.marker.isSome = true) :
    ∃ guid, definition.guid? = some guid := by
  simp only [ofText?, Option.map_eq_some_iff] at parsed
  obtain ⟨script, _, rfl⟩ := parsed
  obtain ⟨id, found⟩ := Option.isSome_iff_exists.mp marked
  obtain ⟨guid, read⟩ := Marker.exists_parse?_of_find? found
  exact ⟨guid, by rw [guid?, found, Option.bind_some, read]⟩

/-- A definition carries an identifier exactly when its marker names it. -/
theorem any_same_iff {definition : Definition} {guid : Guid} :
    (definition.marker.any fun marker => Guid.same marker guid.braced) = true ↔
      definition.guid? = some guid := by
  rw [Option.any_eq_true, guid?, Option.bind_eq_some_iff]
  apply exists_congr
  intro marker
  apply and_congr_right
  intro _
  rw [Guid.same_iff, Guid.parse?_braced]
  simp

end Definition

namespace MemoryCatalog

variable {catalog : MemoryCatalog} {definition : Definition} {guid : Guid}

/-- A definition that carries an identifier asks the catalog for its key. -/
theorem requested_of_guid? (carried : definition.guid? = some guid) :
    definition.marker.bind key? = some guid.text := by
  obtain ⟨marker, marked, read⟩ := Option.bind_eq_some_iff.mp carried
  rw [marked, Option.bind_some, key?, read, Option.map_some]

/-- A definition that carries no identifier asks for no key. -/
theorem not_requested_of_guid? (bare : definition.guid? = none) :
    definition.marker.bind key? = none := by
  unfold Definition.guid? at bare
  cases marked : definition.marker with
  | none => rfl
  | some marker =>
      rw [marked, Option.bind_some] at bare
      rw [Option.bind_some, key?, bare, Option.map_none]

/-- The catalog with the entry of a definition under an identifier. -/
def record (catalog : MemoryCatalog) (guid : Guid) (definition : Definition) : MemoryCatalog :=
  catalog.put guid.text (Entry.ofDefinition guid.braced definition)

/-- What handing over a definition under its own identifier counts as. -/
def outcome (catalog : MemoryCatalog) (guid : Guid) (definition : Definition) : Outcome :=
  match catalog.find? guid.text with
  | none => .created
  | some entry => if entry.fingerprint = definition.fingerprint then .unchanged else .updated

/-- A new definition is recorded under the next identifier of the supply. -/
theorem createFresh_eq (catalog : MemoryCatalog) (definition : Definition) :
    catalog.createFresh definition =
      (⟨(catalog.supply catalog.used).braced, .created⟩,
        { catalog.record (catalog.supply catalog.used) definition with
          used := catalog.used + 1 }) :=
  rfl

/-- **A definition keeps its identifier** when the catalog has no entry of another kind under it. -/
theorem upsert_of_guid? (sound : Sound catalog.table) (carried : definition.guid? = some guid)
    (agrees : ∀ entry, catalog.find? guid.text = some entry → entry.kind = definition.kind) :
    catalog.upsert definition =
      (⟨guid.braced, catalog.outcome guid definition⟩, catalog.record guid definition) := by
  unfold upsert outcome
  rw [requested_of_guid? carried]
  cases found : catalog.find? guid.text with
  | none => simp only [found, create, record, idOf_text]
  | some entry =>
      simp only [found, agrees entry found, if_true, renew, sound.id_of_find? found]
      rfl

/-- A lookup reads the first row before the others. -/
theorem lookup_row (key wanted : Text) (entry : Entry) (rest : List (Text × Entry)) :
    ((key, entry) :: rest).lookup wanted =
      if key = wanted then some entry else rest.lookup wanted := by
  rw [List.lookup_cons]
  split
  case h_1 same => rw [if_pos (beq_iff_eq.mp same).symm]
  case h_2 differs => rw [if_neg fun same => beq_eq_false_iff_ne.mp differs same.symm]

/-- What is looked for in a table into which an entry was put. -/
theorem lookup_insert (key : Text) (entry : Entry) (table : List (Text × Entry)) (wanted : Text) :
    (insert key entry table).lookup wanted =
      if key = wanted then some entry else table.lookup wanted := by
  induction table with
  | nil => exact lookup_row key wanted entry []
  | cons first rest ih =>
      obtain ⟨name, old⟩ := first
      simp only [insert, lookup_row]
      split
      case isTrue replaced =>
        rw [lookup_row, ← replaced]
        split <;> rfl
      case isFalse different =>
        split
        case isTrue => rw [lookup_row, lookup_row]
        case isFalse =>
          rw [lookup_row, ih]
          by_cases same : key = wanted
          · have other : ¬ name = wanted := fun here => different (same.trans here.symm)
            rw [if_neg other, if_pos same, if_pos same]
          · rw [if_neg same, if_neg same]

/-- Only the entry under the identifier changes. -/
theorem find?_record (catalog : MemoryCatalog) (guid : Guid) (definition : Definition)
    (wanted : Text) :
    (catalog.record guid definition).find? wanted =
      if guid.text = wanted then some (Entry.ofDefinition guid.braced definition)
      else catalog.find? wanted :=
  lookup_insert guid.text (Entry.ofDefinition guid.braced definition) catalog.table wanted

/-- In an ordered table, no later row comes before the first one. -/
theorem not_precedes_of_ordered {first other : Text × Entry} {rest : List (Text × Entry)}
    (ordered : Ordered (first :: rest)) (member : other ∈ rest) :
    ¬ other.1.precedes first.1 = true := by
  intro ahead
  have loop := Text.precedes_trans ahead ((List.pairwise_cons.mp ordered).1 other member)
  rw [Text.precedes_irrefl] at loop
  cases loop

/-- An entry that is there already is put into its place. -/
theorem insert_of_mem {key : Text} {entry : Entry} {table : List (Text × Entry)}
    (ordered : Ordered table) (member : (key, entry) ∈ table) : insert key entry table = table := by
  induction table with
  | nil => cases member
  | cons first rest ih =>
      rcases List.mem_cons.mp member with rfl | later
      · rw [insert, if_pos rfl]
      · rw [insert, if_neg (key_ne_of_ordered ordered later),
          if_neg (not_precedes_of_ordered ordered later),
          ih (List.pairwise_cons.mp ordered).2 later]

/-- **What is recorded is left alone.** -/
theorem upsert_of_find? (sound : Sound catalog.table)
    (carried : definition.guid? = some guid)
    (recorded : catalog.find? guid.text = some (Entry.ofDefinition guid.braced definition)) :
    catalog.upsert definition = (⟨guid.braced, .unchanged⟩, catalog) := by
  have agrees : ∀ entry, catalog.find? guid.text = some entry → entry.kind = definition.kind := by
    intro entry found
    rw [recorded] at found
    cases found
    rfl
  have same : catalog.record guid definition = catalog := by
    rw [record, put, insert_of_mem sound.ordered (mem_of_find? recorded)]
  rw [upsert_of_guid? sound carried agrees, same, outcome, recorded]
  simp only [Entry.ofDefinition, if_true]

/-- Every definition was answered with the identifier it carries. -/
def Kept (answers : List (Definition × Upsert)) : Prop :=
  ∀ answer ∈ answers, ∃ guid, answer.1.guid? = some guid ∧ answer.2.id = guid.braced

/-- A catalog answers two lists one after the other. -/
theorem answers_append (catalog : MemoryCatalog) (first second : List Definition) :
    catalog.answers (first ++ second) =
      catalog.answers first ++ (catalog.afterAll first).answers second := by
  induction first generalizing catalog with
  | nil => rfl
  | cons definition rest ih =>
      rw [List.cons_append, answers, ih, answers, afterAll, List.cons_append]

/-- Every definition gets an answer, in order. -/
theorem map_fst_answers (catalog : MemoryCatalog) (definitions : List Definition) :
    (catalog.answers definitions).map Prod.fst = definitions := by
  induction definitions generalizing catalog with
  | nil => rfl
  | cons definition rest ih => rw [answers, List.map_cons, ih]

/-- Where every identifier is kept, the identifiers answered are those carried. -/
theorem Kept.mem_ids_iff {definitions : List Definition}
    (kept : Kept (catalog.answers definitions)) :
    guid.braced ∈ (catalog.answers definitions).map (·.2.id) ↔
      ∃ definition ∈ definitions, definition.guid? = some guid := by
  constructor
  · intro member
    obtain ⟨answer, inside, same⟩ := List.mem_map.mp member
    obtain ⟨other, named, answered⟩ := kept answer inside
    obtain rfl := Guid.braced_injective (answered.symm.trans same)
    refine ⟨answer.1, ?_, named⟩
    rw [← catalog.map_fst_answers definitions]
    exact List.mem_map_of_mem inside
  · rintro ⟨definition, member, named⟩
    rw [← catalog.map_fst_answers definitions] at member
    obtain ⟨answer, inside, rfl⟩ := List.mem_map.mp member
    obtain ⟨other, otherNamed, answered⟩ := kept answer inside
    rw [named] at otherNamed
    cases otherNamed
    exact List.mem_map.mpr ⟨answer, inside, answered⟩

/-- Among definitions that carry different identifiers and keep them, each is the last one that was
answered with its own. -/
theorem Kept.lastAnswer {definitions : List Definition}
    (kept : Kept (catalog.answers definitions))
    (distinct : (definitions.map Definition.guid?).Nodup) (member : definition ∈ definitions)
    (named : definition.guid? = some guid) :
    LastAnswer (catalog.answers definitions) guid definition := by
  have listed := catalog.map_fst_answers definitions
  rw [← listed] at member distinct
  obtain ⟨answer, inside, rfl⟩ := List.mem_map.mp member
  obtain ⟨before, after, split⟩ := List.append_of_mem inside
  obtain ⟨other, otherNamed, answered⟩ := kept answer inside
  rw [named] at otherNamed
  cases otherNamed
  refine ⟨before, answer.2.outcome, after, ?_, ?_⟩
  · rw [split, ← answered]
  · intro later inAfter same
    obtain ⟨wanted, laterNamed, laterAnswered⟩ := kept later (by rw [split]; simp [inAfter])
    obtain rfl := Guid.braced_injective (laterAnswered.symm.trans same)
    rw [split, List.map_append, List.map_cons, List.map_append, List.map_cons] at distinct
    have apart := (List.nodup_cons.mp (List.nodup_append.mp distinct).2.1).1
    refine apart (List.mem_map.mpr ⟨later.1, List.mem_map_of_mem inAfter, ?_⟩)
    rw [laterNamed, named]

/-- Definitions that carry different identifiers keep them, if no entry of the catalog under one of
them is of another kind. -/
theorem kept_of_nodup (sound : Sound catalog.table) {definitions : List Definition}
    (carried : ∀ definition ∈ definitions, ∃ guid, definition.guid? = some guid)
    (distinct : (definitions.map Definition.guid?).Nodup)
    (agrees : ∀ definition ∈ definitions, ∀ guid entry, definition.guid? = some guid →
      catalog.find? guid.text = some entry → entry.kind = definition.kind) :
    Kept (catalog.answers definitions) := by
  induction definitions generalizing catalog with
  | nil =>
      intro answer member
      cases member
  | cons definition rest ih =>
      rw [List.forall_mem_cons] at carried agrees
      rw [List.map_cons, List.nodup_cons] at distinct
      obtain ⟨guid, named⟩ := carried.1
      have handed := upsert_of_guid? sound named fun entry => agrees.1 guid entry named
      have next := sound.upsert definition
      rw [handed] at next
      rw [answers, handed]
      intro answer member
      rcases List.mem_cons.mp member with rfl | later
      · exact ⟨guid, named, rfl⟩
      · refine ih next carried.2 distinct.2 ?_ answer later
        intro other inside wanted entry otherNamed found
        have differs : guid ≠ wanted := by
          rintro rfl
          exact distinct.1 (List.mem_map.mpr ⟨other, inside, by rw [otherNamed, named]⟩)
        rw [find?_record, if_neg (Guid.text_ne differs)] at found
        exact agrees.2 other inside wanted entry otherNamed found

/-- Definitions that are recorded already are answered as unchanged, and the catalog stays as it
is. -/
theorem afterAll_of_recorded (sound : Sound catalog.table) {definitions : List Definition}
    (recorded : ∀ definition ∈ definitions, ∃ guid, definition.guid? = some guid ∧
      catalog.find? guid.text = some (Entry.ofDefinition guid.braced definition)) :
    catalog.afterAll definitions = catalog ∧ Kept (catalog.answers definitions) ∧
      ∀ answer ∈ catalog.answers definitions, answer.2.outcome = .unchanged := by
  induction definitions with
  | nil => exact ⟨rfl, fun answer member => absurd member List.not_mem_nil,
      fun answer member => absurd member List.not_mem_nil⟩
  | cons definition rest ih =>
      rw [List.forall_mem_cons] at recorded
      obtain ⟨⟨guid, named, found⟩, others⟩ := recorded
      obtain ⟨same, kept, unchanged⟩ := ih others
      rw [afterAll, answers, upsert_of_find? sound named found]
      refine ⟨same, ?_, ?_⟩
      · exact List.forall_mem_cons.mpr ⟨⟨guid, named, rfl⟩, kept⟩
      · exact List.forall_mem_cons.mpr ⟨rfl, unchanged⟩

/-- Renewing an entry leaves the keys of a table. -/
theorem map_fst_insert {key : Text} {entry : Entry} {table : List (Text × Entry)}
    (ordered : Ordered table) (known : key ∈ table.map Prod.fst) :
    (insert key entry table).map Prod.fst = table.map Prod.fst := by
  induction table with
  | nil => cases known
  | cons first rest ih =>
      by_cases same : key = first.1
      · rw [insert, if_pos same, List.map_cons, List.map_cons, same]
      · have later : key ∈ rest.map Prod.fst := by
          rcases List.mem_cons.mp known with here | later
          · exact absurd here same
          · exact later
        obtain ⟨other, member, named⟩ := List.mem_map.mp later
        have behind := not_precedes_of_ordered ordered member
        rw [named] at behind
        rw [insert, if_neg same, if_neg behind, List.map_cons, List.map_cons,
          ih (List.pairwise_cons.mp ordered).2 later]

/-- Tables with the same keys list the same identifiers. -/
theorem ids_eq_of_keys {other : MemoryCatalog} (sound : Sound catalog.table)
    (soundToo : Sound other.table)
    (same : other.table.map Prod.fst = catalog.table.map Prod.fst) : other.ids = catalog.ids := by
  obtain ⟨guids, keys, ids⟩ := sound.exists_guids
  obtain ⟨others, otherKeys, otherIds⟩ := soundToo.exists_guids
  rw [keys, otherKeys] at same
  obtain rfl : others = guids :=
    (List.map_inj_right fun _ _ => Guid.eq_of_text_eq).mp same
  rw [ids_eq, ids_eq, ids, otherIds]

/-- **Known identifiers.** Definitions whose identifiers the catalog knows for their kind keep them,
none of them is new, and the catalog has the same identifiers afterwards. -/
theorem kept_of_known (sound : Sound catalog.table) {definitions : List Definition}
    (known : ∀ definition ∈ definitions, ∃ guid entry, definition.guid? = some guid ∧
      catalog.find? guid.text = some entry ∧ entry.kind = definition.kind) :
    Kept (catalog.answers definitions) ∧
      (∀ answer ∈ catalog.answers definitions, answer.2.outcome ≠ .created) ∧
      (catalog.afterAll definitions).ids = catalog.ids := by
  induction definitions generalizing catalog with
  | nil => exact ⟨fun answer member => absurd member List.not_mem_nil,
      fun answer member => absurd member List.not_mem_nil, rfl⟩
  | cons definition rest ih =>
      rw [List.forall_mem_cons] at known
      obtain ⟨⟨guid, entry, named, found, agrees⟩, others⟩ := known
      have handed := upsert_of_guid? sound named fun other foundToo => by
        rw [found] at foundToo
        cases foundToo
        exact agrees
      have next : Sound (catalog.record guid definition).table := sound.insert rfl
      obtain ⟨kept, notCreated, same⟩ := ih next fun other inside => by
        obtain ⟨wanted, old, otherNamed, otherFound, otherAgrees⟩ := others other inside
        by_cases here : guid = wanted
        · subst here
          rw [found] at otherFound
          cases otherFound
          refine ⟨guid, Entry.ofDefinition guid.braced definition, otherNamed, ?_,
            agrees.symm.trans otherAgrees⟩
          rw [find?_record, if_pos rfl]
        · refine ⟨wanted, old, otherNamed, ?_, otherAgrees⟩
          rw [find?_record, if_neg (Guid.text_ne here), otherFound]
      rw [answers, afterAll, handed]
      refine ⟨List.forall_mem_cons.mpr ⟨⟨guid, named, rfl⟩, kept⟩,
        List.forall_mem_cons.mpr ⟨?_, notCreated⟩, same.trans ?_⟩
      · rw [outcome, found]
        simp only
        split <;> decide
      · refine ids_eq_of_keys sound next (map_fst_insert sound.ordered ?_)
        exact List.mem_map.mpr ⟨(guid.text, entry), mem_of_find? found, rfl⟩

end MemoryCatalog

end RoutineScripts
