import RoutineScripts.Catalog.Memory
import RoutineScripts.Proofs.Guid

/-!
# The entries of a catalog in memory

Two things hold of the table of every reachable catalog (`MemoryCatalog.Reachable.sound`): its keys
are in strict order, and each of them is the canonical form of the identifier that the entry under
it stores. The second is what makes an entry that is renewed keep its key, since the identifier that
is answered for it is the stored one.

Whatever branch a definition takes, handing it over puts its entry under the identifier that is
answered and touches no other one (`MemoryCatalog.upsert_cases`). So after any number of definitions
an entry is that of the last definition answered with its identifier, or an old one whose identifier
was not answered (`MemoryCatalog.mem_afterAll_iff`).
-/

namespace RoutineScripts

namespace MemoryCatalog

/-- The states that the operations of a catalog lead to. -/
inductive Reachable : MemoryCatalog → Prop
  | empty (supply : Nat → Guid) : Reachable (MemoryCatalog.empty supply)
  | upsert {catalog : MemoryCatalog} (reachable : Reachable catalog) (definition : Definition) :
      Reachable (catalog.upsert definition).2
  | remove {catalog : MemoryCatalog} (reachable : Reachable catalog) (id : Text) :
      Reachable (catalog.remove id).2

/-- Keys in strict order. -/
def Ordered (table : List (Text × Entry)) : Prop :=
  table.Pairwise fun first second => first.1.precedes second.1 = true

/-- What holds of the table of a catalog: the keys are in order, and the key and the identifier
stored under it are those of one identifier. -/
structure Sound (table : List (Text × Entry)) : Prop where
  ordered : Ordered table
  inStep : ∀ row ∈ table, ∃ guid : Guid, row.1 = guid.text ∧ row.2.id = guid.braced

variable {catalog : MemoryCatalog} {definition : Definition} {table : List (Text × Entry)}
  {row : Text × Entry} {key : Text} {entry : Entry} {guid : Guid}

/-- The identifier answered for a canonical key is the one in braces. -/
@[simp] theorem idOf_text (guid : Guid) : idOf guid.text = guid.braced :=
  rfl

/-- The key for an identifier in braces is its canonical form. -/
@[simp] theorem key?_braced (guid : Guid) : key? guid.braced = some guid.text := by
  rw [key?, Guid.parse?_braced, Option.map_some]

/-- Every key that is looked for is the canonical form of an identifier. -/
theorem exists_guid_of_key? {id : Text} (named : key? id = some key) :
    ∃ guid, Guid.parse? id = some guid ∧ guid.text = key :=
  Option.map_eq_some_iff.mp named

/-- An entry that is found stands in the table under its key. -/
theorem mem_of_find? (found : catalog.find? key = some entry) : (key, entry) ∈ catalog.table := by
  obtain ⟨before, after, split, _⟩ := List.lookup_eq_some_iff.mp found
  rw [split]
  exact List.mem_append_right before List.mem_cons_self

/-- The entry under a key stores the identifier with that key. -/
theorem Sound.id_of_find? (sound : Sound catalog.table)
    (found : catalog.find? guid.text = some entry) : entry.id = guid.braced := by
  obtain ⟨other, sameKey, stored⟩ := sound.inStep _ (mem_of_find? found)
  rw [stored, Guid.eq_of_text_eq sameKey]

/-- The keys of a table are those of identifiers, which the entries store in the same order. -/
theorem Sound.exists_guids (sound : Sound table) :
    ∃ guids : List Guid, table.map Prod.fst = guids.map Guid.text ∧
      table.map (fun row => row.2.id) = guids.map Guid.braced := by
  have inStep := sound.inStep
  clear sound
  induction table with
  | nil => exact ⟨[], rfl, rfl⟩
  | cons row rest ih =>
      rw [List.forall_mem_cons] at inStep
      obtain ⟨guid, key, stored⟩ := inStep.1
      obtain ⟨guids, keys, ids⟩ := ih inStep.2
      refine ⟨guid :: guids, ?_, ?_⟩
      · rw [List.map_cons, List.map_cons, key, keys]
      · rw [List.map_cons, List.map_cons, stored, ids]

/-- **Handing over a definition.** Its entry is put under the identifier that is answered. -/
theorem upsert_cases (sound : Sound catalog.table) (definition : Definition) :
    ∃ (guid : Guid) (outcome : Outcome) (used : Nat),
      catalog.upsert definition =
        (⟨guid.braced, outcome⟩,
          { catalog with
            table := insert guid.text (Entry.ofDefinition guid.braced definition) catalog.table
            used }) := by
  unfold upsert
  cases requested : definition.marker.bind key? with
  | none => exact ⟨_, .created, catalog.used + 1, rfl⟩
  | some key =>
      obtain ⟨marker, _, named⟩ := Option.bind_eq_some_iff.mp requested
      obtain ⟨guid, _, rfl⟩ := exists_guid_of_key? named
      simp only
      cases found : catalog.find? guid.text with
      | none => exact ⟨guid, .created, catalog.used, rfl⟩
      | some existing =>
          simp only
          split
          case isTrue =>
            -- The identifier answered is the stored one, which is in step with the key.
            rw [renew, sound.id_of_find? found]
            exact ⟨guid, _, catalog.used, rfl⟩
          case isFalse => exact ⟨_, .created, catalog.used + 1, rfl⟩

theorem mem_of_mem_insert (member : row ∈ insert key entry table) :
    row = (key, entry) ∨ row ∈ table := by
  induction table with
  | nil => exact Or.inl (List.mem_singleton.mp member)
  | cons first rest ih =>
      simp only [insert] at member
      split at member
      case isTrue => exact (List.mem_cons.mp member).imp_right (List.mem_cons_of_mem _)
      case isFalse =>
        split at member
        case isTrue => exact List.mem_cons.mp member
        case isFalse =>
          rcases List.mem_cons.mp member with rfl | later
          · exact Or.inr List.mem_cons_self
          · exact (ih later).imp_right (List.mem_cons_of_mem _)

/-- Putting an entry into a table keeps the keys in order. -/
theorem ordered_insert (ordered : Ordered table) : Ordered (insert key entry table) := by
  induction table with
  | nil => exact List.pairwise_singleton _ _
  | cons first rest ih =>
      obtain ⟨before, others⟩ := List.pairwise_cons.mp ordered
      simp only [insert]
      split
      case isTrue same =>
        refine List.pairwise_cons.mpr ⟨fun other member => ?_, others⟩
        rw [same]
        exact before other member
      case isFalse different =>
        split
        case isTrue earlier =>
          refine List.pairwise_cons.mpr ⟨fun other member => ?_, ordered⟩
          rcases List.mem_cons.mp member with rfl | later
          · exact earlier
          · exact Text.precedes_trans earlier (before other later)
        case isFalse notEarlier =>
          refine List.pairwise_cons.mpr ⟨fun other member => ?_, ih others⟩
          rcases mem_of_mem_insert member with rfl | later
          · exact Text.precedes_of_ne different notEarlier
          · exact before other later

/-- Putting an entry under the key of the identifier that it stores keeps a table sound. -/
theorem Sound.insert (sound : Sound table) (stored : entry.id = guid.braced) :
    Sound (MemoryCatalog.insert guid.text entry table) := by
  refine ⟨ordered_insert sound.ordered, fun row member => ?_⟩
  rcases mem_of_mem_insert member with rfl | old
  · exact ⟨guid, rfl, stored⟩
  · exact sound.inStep row old

/-- Taking rows out keeps a table sound. -/
theorem Sound.filter (sound : Sound table) (keeps : Text × Entry → Bool) :
    Sound (table.filter keeps) :=
  ⟨sound.ordered.filter keeps, fun row member => sound.inStep row (List.mem_filter.mp member).1⟩

/-- Handing over a definition keeps a table sound. -/
theorem Sound.upsert (sound : Sound catalog.table) (definition : Definition) :
    Sound (catalog.upsert definition).2.table := by
  obtain ⟨guid, outcome, used, handed⟩ := upsert_cases sound definition
  rw [handed]
  exact sound.insert rfl

/-- Taking out an identifier keeps a table sound. -/
theorem Sound.remove (sound : Sound catalog.table) (id : Text) :
    Sound (catalog.remove id).2.table := by
  unfold MemoryCatalog.remove
  split
  case h_1 => exact sound
  case h_2 =>
    split
    case isTrue => exact sound.filter _
    case isFalse => exact sound

/-- **The table of every catalog that operations lead to is sound.** -/
theorem Reachable.sound (reachable : Reachable catalog) : Sound catalog.table := by
  induction reachable with
  | empty supply => exact ⟨.nil, fun row member => absurd member List.not_mem_nil⟩
  | upsert _ definition ih => exact ih.upsert definition
  | remove _ id ih => exact ih.remove id

/-- In an ordered table, no later row has the key of the first one. -/
theorem key_ne_of_ordered (ordered : Ordered (row :: table)) {other : Text × Entry}
    (member : other ∈ table) : other.1 ≠ row.1 := by
  intro same
  have before := (List.pairwise_cons.mp ordered).1 other member
  rw [same, Text.precedes_irrefl] at before
  cases before

/-- An entry takes the place of the one under its key and leaves the others. -/
theorem mem_insert_iff (ordered : Ordered table) :
    row ∈ insert key entry table ↔ row = (key, entry) ∨ row ∈ table ∧ row.1 ≠ key := by
  induction table with
  | nil => simp [insert]
  | cons first rest ih =>
      have others := (List.pairwise_cons.mp ordered).2
      simp only [insert]
      split
      case isTrue same =>
        rw [List.mem_cons]
        refine or_congr_right ⟨fun later => ?_, fun ⟨member, differs⟩ => ?_⟩
        · exact ⟨List.mem_cons_of_mem _ later, same ▸ key_ne_of_ordered ordered later⟩
        · rcases List.mem_cons.mp member with rfl | later
          · exact absurd same.symm differs
          · exact later
      case isFalse different =>
        split
        case isTrue earlier =>
          rw [List.mem_cons]
          refine or_congr_right ⟨fun member => ⟨member, ?_⟩, And.left⟩
          have placed : Ordered ((key, entry) :: first :: rest) := by
            have inserted : Ordered (insert key entry (first :: rest)) := ordered_insert ordered
            simpa [insert, different, earlier] using inserted
          exact key_ne_of_ordered placed member
        case isFalse =>
          rw [List.mem_cons, ih others, List.mem_cons]
          constructor
          · rintro (rfl | rfl | ⟨later, differs⟩)
            · exact Or.inr ⟨Or.inl rfl, Ne.symm different⟩
            · exact Or.inl rfl
            · exact Or.inr ⟨Or.inr later, differs⟩
          · rintro (rfl | ⟨rfl | later, differs⟩)
            · exact Or.inr (Or.inl rfl)
            · exact Or.inl rfl
            · exact Or.inr (Or.inr ⟨later, differs⟩)

/-- A test of keys that an entry fails does not see whether the entry is put in. -/
theorem filter_insert {keeps : Text → Bool} (drops : keeps key = false)
    (table : List (Text × Entry)) :
    (insert key entry table).filter (fun row => keeps row.1) =
      table.filter fun row => keeps row.1 := by
  induction table with
  | nil => simp [insert, drops]
  | cons first rest ih =>
      simp only [insert]
      split
      case isTrue same => simp [← same, drops]
      case isFalse =>
        split
        case isTrue => simp [List.filter_cons, drops]
        case isFalse => rw [List.filter_cons, List.filter_cons, ih]

/-- The catalog after handing over definitions, one after the other. -/
def afterAll : MemoryCatalog → List Definition → MemoryCatalog
  | catalog, [] => catalog
  | catalog, definition :: rest => (catalog.upsert definition).2.afterAll rest

/-- The definitions that are handed over, each with the answer to it. -/
def answers : MemoryCatalog → List Definition → List (Definition × Upsert)
  | _, [] => []
  | catalog, definition :: rest =>
      (definition, (catalog.upsert definition).1) :: (catalog.upsert definition).2.answers rest

/-- `definition` is the last one that was answered with an identifier. -/
def LastAnswer (answers : List (Definition × Upsert)) (guid : Guid) (definition : Definition) :
    Prop :=
  ∃ before outcome after, answers = before ++ (definition, ⟨guid.braced, outcome⟩) :: after ∧
    ∀ later ∈ after, later.2.id ≠ guid.braced

/-- There are as many answers as definitions. -/
theorem length_answers (catalog : MemoryCatalog) (definitions : List Definition) :
    (catalog.answers definitions).length = definitions.length := by
  induction definitions generalizing catalog with
  | nil => rfl
  | cons definition rest ih => rw [answers, List.length_cons, List.length_cons, ih]

/-- Every answer of a sound catalog is an identifier in braces. -/
theorem exists_guid_of_mem_answers (sound : Sound catalog.table) {definitions : List Definition}
    {answer : Definition × Upsert} (member : answer ∈ catalog.answers definitions) :
    ∃ guid : Guid, answer.2.id = guid.braced := by
  induction definitions generalizing catalog with
  | nil => cases member
  | cons definition rest ih =>
      rcases List.mem_cons.mp member with rfl | later
      · obtain ⟨guid, outcome, used, handed⟩ := upsert_cases sound definition
        exact ⟨guid, by rw [handed]⟩
      · exact ih (sound.upsert definition) later

/-- A last answer is one of the answers. -/
theorem LastAnswer.mem {answers : List (Definition × Upsert)} {guid : Guid}
    {definition : Definition} (last : LastAnswer answers guid definition) :
    guid.braced ∈ answers.map (·.2.id) := by
  obtain ⟨before, outcome, after, rfl, _⟩ := last
  simp

/-- Every identifier that was answered was answered to a last definition. -/
theorem exists_lastAnswer {answers : List (Definition × Upsert)} {guid : Guid}
    (member : guid.braced ∈ answers.map (·.2.id)) :
    ∃ definition, LastAnswer answers guid definition := by
  induction answers with
  | nil => cases member
  | cons answer rest ih =>
      by_cases later : guid.braced ∈ rest.map (·.2.id)
      · obtain ⟨definition, before, outcome, after, rfl, none⟩ := ih later
        exact ⟨definition, answer :: before, outcome, after, rfl, none⟩
      · obtain ⟨definition, id, outcome⟩ := answer
        obtain rfl : guid.braced = id := by
          rcases List.mem_cons.mp member with same | inside
          · exact same
          · exact absurd inside later
        refine ⟨definition, [], outcome, rest, rfl, fun other inside same => later ?_⟩
        exact List.mem_map.mpr ⟨other, inside, same⟩

theorem lastAnswer_cons {answers : List (Definition × Upsert)} {guid first : Guid}
    {definition head : Definition} {outcome : Outcome} :
    LastAnswer ((head, ⟨first.braced, outcome⟩) :: answers) guid definition ↔
      LastAnswer answers guid definition ∨
        guid = first ∧ definition = head ∧ ∀ later ∈ answers, later.2.id ≠ guid.braced := by
  constructor
  · rintro ⟨before, other, after, split, none⟩
    cases before with
    | nil =>
        rw [List.nil_append, List.cons.injEq, Prod.mk.injEq, Upsert.mk.injEq] at split
        obtain ⟨⟨rfl, same, _⟩, rfl⟩ := split
        exact Or.inr ⟨(Guid.braced_injective same).symm, rfl, none⟩
    | cons answer before =>
        obtain ⟨_, rfl⟩ := List.cons.inj split
        exact Or.inl ⟨before, other, after, rfl, none⟩
  · rintro (⟨before, other, after, rfl, none⟩ | ⟨rfl, rfl, none⟩)
    · exact ⟨_ :: before, other, after, rfl, none⟩
    · exact ⟨[], outcome, answers, rfl, none⟩

/-- Handing over definitions keeps a table sound. -/
theorem Sound.afterAll (sound : Sound catalog.table) (definitions : List Definition) :
    Sound (catalog.afterAll definitions).table := by
  induction definitions generalizing catalog with
  | nil => exact sound
  | cons definition rest ih => exact ih (sound.upsert definition)

/-- **The entries after a number of definitions.** An entry is that of the last definition that was
answered with its identifier, or an old one whose identifier was not answered. -/
theorem mem_afterAll_iff (sound : Sound catalog.table) (definitions : List Definition) :
    (guid.text, entry) ∈ (catalog.afterAll definitions).table ↔
      (∃ definition, LastAnswer (catalog.answers definitions) guid definition ∧
        entry = Entry.ofDefinition guid.braced definition) ∨
      (guid.text, entry) ∈ catalog.table ∧
        ∀ answer ∈ catalog.answers definitions, answer.2.id ≠ guid.braced := by
  induction definitions generalizing catalog with
  | nil => simp [afterAll, answers, LastAnswer]
  | cons definition rest ih =>
      obtain ⟨first, outcome, used, handed⟩ := upsert_cases sound definition
      have next := sound.upsert definition
      rw [handed] at next
      rw [afterAll, answers, handed, ih next]
      simp only [lastAnswer_cons, mem_insert_iff sound.ordered, List.forall_mem_cons,
        Prod.mk.injEq]
      constructor
      · rintro (⟨latest, last, same⟩ | ⟨⟨here, rfl⟩ | ⟨old, differs⟩, none⟩)
        · exact Or.inl ⟨latest, Or.inl last, same⟩
        · obtain rfl := Guid.eq_of_text_eq here
          exact Or.inl ⟨definition, Or.inr ⟨rfl, rfl, none⟩, rfl⟩
        · refine Or.inr ⟨old, fun same => differs ?_, none⟩
          rw [Guid.braced_injective same]
      · rintro (⟨latest, last | ⟨rfl, rfl, none⟩, same⟩ | ⟨old, differs, none⟩)
        · exact Or.inl ⟨latest, last, same⟩
        · exact Or.inr ⟨Or.inl ⟨rfl, same⟩, none⟩
        · refine Or.inr ⟨Or.inr ⟨old, fun here => differs ?_⟩, none⟩
          rw [Guid.eq_of_text_eq here]

/-- Entries that are not answered stay as they are, in their order. -/
theorem filter_afterAll (sound : Sound catalog.table) {definitions : List Definition}
    {keeps : Text → Bool}
    (drops : ∀ answer ∈ catalog.answers definitions, ∀ guid : Guid, answer.2.id = guid.braced →
      keeps guid.text = false) :
    (catalog.afterAll definitions).table.filter (fun row => keeps row.1) =
      catalog.table.filter fun row => keeps row.1 := by
  induction definitions generalizing catalog with
  | nil => rfl
  | cons definition rest ih =>
      obtain ⟨guid, outcome, used, handed⟩ := upsert_cases sound definition
      have next := sound.upsert definition
      rw [handed] at next
      rw [answers, List.forall_mem_cons, handed] at drops
      rw [afterAll, handed, ih next drops.2]
      exact filter_insert (drops.1 guid rfl) catalog.table

/-- The identifiers of a catalog are those of its rows. -/
theorem ids_eq (catalog : MemoryCatalog) :
    catalog.ids = catalog.table.map fun row => row.2.id := by
  rw [ids, entries, List.map_map]
  rfl

/-- The identifiers of the rows whose keys are not those of given identifiers. -/
theorem map_id_filter {table : List (Text × Entry)} {guids seen : List Guid}
    (keys : table.map Prod.fst = guids.map Guid.text)
    (ids : table.map (fun row => row.2.id) = guids.map Guid.braced) :
    (table.filter fun row => row.1 ∉ seen.map Guid.text).map (fun row => row.2.id) =
      (guids.filter fun guid => guid ∉ seen).map Guid.braced := by
  induction table generalizing guids with
  | nil =>
      rw [List.map_eq_nil_iff.mp keys.symm]
      rfl
  | cons row rest ih =>
      cases guids with
      | nil => cases keys
      | cons guid guids =>
          obtain ⟨keyed, otherKeys⟩ := List.cons.inj keys
          obtain ⟨stored, otherIds⟩ := List.cons.inj ids
          rw [List.filter_cons, List.filter_cons, keyed]
          simp only [Guid.mem_map_text_iff]
          split
          case isTrue => exact List.cons_eq_cons.mpr ⟨stored, ih otherKeys otherIds⟩
          case isFalse => exact ih otherKeys otherIds

/-- Identifiers are listed in the order of their keys, also after some are left out. -/
theorem exists_keys (sound : Sound catalog.table) (test : Text → Bool) :
    ∃ keys : List Guid, catalog.ids.filter test = keys.map Guid.braced ∧
      keys.Pairwise fun first second => first.text.precedes second.text = true := by
  obtain ⟨guids, keys, stored⟩ := sound.exists_guids
  have increasing : (guids.map Guid.text).Pairwise fun first second => first.precedes second := by
    rw [← keys]
    exact List.pairwise_map.mpr sound.ordered
  refine ⟨guids.filter fun guid => test guid.braced, ?_, (List.pairwise_map.mp increasing).filter _⟩
  rw [ids_eq, stored, List.filter_map]
  rfl

/-- Among ordered keys an entry is found under its key. -/
theorem find?_eq_some (ordered : Ordered catalog.table) (member : (key, entry) ∈ catalog.table) :
    catalog.find? key = some entry := by
  rw [find?]
  generalize catalog.table = table at ordered member
  induction table with
  | nil => cases member
  | cons first rest ih =>
      rcases List.mem_cons.mp member with rfl | later
      · exact List.lookup_cons_self
      · have differs : (key == first.1) = false :=
          beq_eq_false_iff_ne.mpr (key_ne_of_ordered ordered later)
        rw [List.lookup_cons, differs]
        exact ih (List.pairwise_cons.mp ordered).2 later

end MemoryCatalog

end RoutineScripts
