import RoutineScripts.Files.Walk

/-!
# Errors

What can go wrong when a library is synchronised. Reading a definition never fails with an error:
a text that is no script simply has no definition.
-/

namespace RoutineScripts

/-- The causes that stop a run. -/
inductive SyncError
  | unreadable (path : Text) (fault : Fault)
  | unwritable (path : Text) (fault : Fault)
  | invalidPattern (pattern : Text) (error : PatternError)
  | untraversable (path : Text) (error : WalkError)
  | entryNotFound (id : Text)
  deriving DecidableEq, Repr

namespace SyncError

/-- What went wrong. -/
def message : SyncError → Text
  | unreadable path _ => "Failed to read SQL file: ".toList ++ path
  | unwritable path _ => "Failed to write SQL file: ".toList ++ path
  | invalidPattern pattern _ => "Invalid file pattern: ".toList ++ pattern
  | untraversable path _ => "Failed to traverse directory: ".toList ++ path
  | entryNotFound id => "Catalog entry not found: ".toList ++ id

/-- What caused it. -/
def source? : SyncError → Option Text
  | unreadable _ fault | unwritable _ fault => some fault.message
  | invalidPattern _ error => some error.message
  | untraversable _ error =>
      some ("IO error for operation on ".toList ++ error.path ++ ": ".toList ++ error.fault.message)
  | entryNotFound _ => none

end SyncError

end RoutineScripts
