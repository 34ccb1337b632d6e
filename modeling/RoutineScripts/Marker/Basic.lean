import RoutineScripts.Guid

/-!
# Markers

A marker ties a script to its catalog entry: the word `@GUID`, optional white space, and an
identifier in braces. It is found in any text, whether or not that text is a script.
-/

namespace RoutineScripts

namespace Marker

/-- The identifier of a marker at the front of a text, braces included and as written. -/
def read? (text : Text) : Option Text :=
  match Recogniser.sequence [.keyword "@GUID", .run isBlank] text with
  | none => none
  | some (_, rest) =>
      (Recogniser.sequence [.char '{', Guid.written, .char '}'] rest).map fun (id, _) => id

/-- The identifier of the first marker in a text, braces included and as written. -/
def find? (text : Text) : Option Text :=
  (search (fun _ rest => read? rest) none text).map fun (_, id) => id

end Marker

end RoutineScripts
