import RoutineScripts.Error
import RoutineScripts.Routine.Fingerprint

/-!
# Catalogs

A catalog owns the identifiers of routines. For each definition it is handed, it says which
identifier the script should carry and whether the routine is new or has changed. Synchronising a
library needs no more than the three operations of the class `Catalog`.
-/

namespace RoutineScripts

/-- What handing a definition to a catalog did. -/
inductive Outcome
  | created
  | updated
  | unchanged
  deriving DecidableEq, Repr

/-- The answer of a catalog to a definition. The identifier is in braces if the catalog writes it
so. -/
structure Upsert where
  id : Text
  outcome : Outcome
  deriving DecidableEq, Repr

/-- The operations of a catalog with states of type `σ`. An operation that fails may still leave
another state behind. -/
class Catalog (σ : Type) where
  /-- Creates or updates the entry of a definition. -/
  upsert : σ → Definition → Except SyncError Upsert × σ
  /-- The identifiers of all entries, in the order of the catalog. -/
  ids : σ → List Text
  /-- Takes out the entry with an identifier. -/
  remove : σ → Text → Except SyncError Unit × σ

/-- What a catalog keeps about a routine, with the identifier that it answers for it. -/
structure Entry where
  id : Text
  kind : Kind
  name : QualifiedName
  arguments : Text
  returns : Text
  language : Language
  comment : Option Text
  fingerprint : Text
  deriving DecidableEq, Repr

/-- The entry of a definition with an identifier. -/
def Entry.ofDefinition (id : Text) (definition : Definition) : Entry where
  id := id
  kind := definition.kind
  name := definition.name
  arguments := definition.arguments
  returns := definition.returns
  language := definition.language
  comment := definition.comment
  fingerprint := definition.fingerprint

end RoutineScripts
