import RoutineScripts.Catalog.Basic

/-!
# A catalog that replays answers

Answers to definitions are given in advance and do not depend on them. Each answer is used once,
the last one again and again. Identifiers are any texts and are kept in the order in which they
were first answered.
-/

namespace RoutineScripts

/-- An answer given in advance: a failure for an identifier, or an identifier and an outcome. -/
inductive Reply
  | failure (id : Text)
  | answer (upsert : Upsert)
  deriving DecidableEq, Repr

/-- The identifiers listed, the answers still to come, and whether removing always fails. -/
structure ReplayCatalog where
  listed : List Text
  replies : List Reply
  keepsAll : Bool
  deriving DecidableEq, Repr

namespace ReplayCatalog

/-- The catalog after using up an answer. -/
def advance (catalog : ReplayCatalog) : ReplayCatalog :=
  match catalog.replies with
  | _ :: next :: rest => { catalog with replies := next :: rest }
  | _ => catalog

/-- Gives the next answer. A catalog without answers fails. -/
def upsert (catalog : ReplayCatalog) : Except SyncError Upsert × ReplayCatalog :=
  match catalog.replies with
  | [] => (.error (.entryNotFound []), catalog)
  | .failure id :: _ => (.error (.entryNotFound id), catalog.advance)
  | .answer upsert :: _ =>
      let listed :=
        if upsert.id ∈ catalog.listed then catalog.listed else catalog.listed ++ [upsert.id]
      (.ok upsert, { catalog.advance with listed })

/-- Takes an identifier off the list. -/
def remove (catalog : ReplayCatalog) (id : Text) : Except SyncError Unit × ReplayCatalog :=
  if catalog.keepsAll || !catalog.listed.contains id then (.error (.entryNotFound id), catalog)
  else (.ok (), { catalog with listed := catalog.listed.filter (· != id) })

/-- The recorded replies, behind the operations that a run asks for. -/
instance : Catalog ReplayCatalog where
  upsert catalog _ := catalog.upsert
  ids catalog := catalog.listed
  remove := remove

end ReplayCatalog

end RoutineScripts
