import RoutineScripts.Catalog.Basic

/-!
# A catalog in memory

A table of entries in increasing order of their keys. A key is the canonical form of an identifier;
the entry under it stores the identifier once more, in the spelling the catalog answers with. A
definition keeps the identifier of its marker when the catalog does not know it yet, or knows it for
a routine of the same kind. Every other definition gets the next identifier of the supply.
-/

namespace RoutineScripts

/-- Entries under their keys, a supply of identifiers, and how many of them have been used. -/
structure MemoryCatalog where
  table : List (Text × Entry)
  supply : Nat → Guid
  used : Nat

namespace MemoryCatalog

/-- A catalog without entries. -/
def empty (supply : Nat → Guid) : MemoryCatalog :=
  ⟨[], supply, 0⟩

/-- The key for the identifier that a text names. -/
def key? (id : Text) : Option Text :=
  (Guid.parse? id).map Guid.text

/-- The identifier with a key, as the catalog answers it. -/
def idOf (key : Text) : Text :=
  '{' :: key ++ ['}']

/-- The entries, in the order of their keys. -/
def entries (catalog : MemoryCatalog) : List Entry :=
  catalog.table.map Prod.snd

/-- The entry under a key. -/
def find? (catalog : MemoryCatalog) (key : Text) : Option Entry :=
  catalog.table.lookup key

/-- The entry with the identifier that a text names. -/
def get? (catalog : MemoryCatalog) (id : Text) : Option Entry :=
  (key? id).bind catalog.find?

/-- Puts an entry into a table, in the place of its key. An entry under the same key is
replaced. -/
def insert (key : Text) (entry : Entry) : List (Text × Entry) → List (Text × Entry)
  | [] => [(key, entry)]
  | other :: rest =>
      if key = other.1 then (key, entry) :: rest
      else if key.precedes other.1 then (key, entry) :: other :: rest
      else other :: insert key entry rest

/-- The catalog with an entry under a key. -/
def put (catalog : MemoryCatalog) (key : Text) (entry : Entry) : MemoryCatalog :=
  { catalog with table := insert key entry catalog.table }

/-- Creates the entry of a definition under a key. -/
def create (catalog : MemoryCatalog) (key : Text) (definition : Definition) :
    Upsert × MemoryCatalog :=
  (⟨idOf key, .created⟩, catalog.put key (Entry.ofDefinition (idOf key) definition))

/-- Creates the entry of a definition under the next identifier of the supply. -/
def createFresh (catalog : MemoryCatalog) (definition : Definition) : Upsert × MemoryCatalog :=
  { catalog with used := catalog.used + 1 }.create (catalog.supply catalog.used).text definition

/-- Renews an entry with a definition. The identifier is the one the entry stores. -/
def renew (catalog : MemoryCatalog) (key : Text) (existing : Entry) (definition : Definition) :
    Upsert × MemoryCatalog :=
  let entry := Entry.ofDefinition existing.id definition
  let outcome := if existing.fingerprint = entry.fingerprint then .unchanged else .updated
  (⟨entry.id, outcome⟩, catalog.put key entry)

/-- Creates or updates the entry of a definition. -/
def upsert (catalog : MemoryCatalog) (definition : Definition) : Upsert × MemoryCatalog :=
  match definition.marker.bind key? with
  | none => catalog.createFresh definition
  | some key =>
      match catalog.find? key with
      | none => catalog.create key definition
      | some existing =>
          if existing.kind = definition.kind then catalog.renew key existing definition
          else catalog.createFresh definition

/-- The identifiers that the entries store, in the order of their keys. -/
def ids (catalog : MemoryCatalog) : List Text :=
  catalog.entries.map Entry.id

/-- Takes out the entry with the identifier that a text names. -/
def remove (catalog : MemoryCatalog) (id : Text) : Except SyncError Unit × MemoryCatalog :=
  match key? id with
  | none => (.error (.entryNotFound id), catalog)
  | some key =>
      if (catalog.find? key).isSome then
        (.ok (), { catalog with table := catalog.table.filter fun row => row.1 != key })
      else
        (.error (.entryNotFound id), catalog)

/-- The catalog kept in memory, behind the operations that a run asks for. -/
instance : Catalog MemoryCatalog where
  upsert catalog definition :=
    let (upsert, next) := catalog.upsert definition
    (.ok upsert, next)
  ids := ids
  remove := remove

end MemoryCatalog

end RoutineScripts
