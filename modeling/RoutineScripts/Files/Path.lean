import RoutineScripts.Text.Basic

/-!
# Paths

A path is a text with `/` between its components. Joining works on the text alone: nothing is
normalised, so a path is shown the way it was put together.
-/

namespace RoutineScripts

namespace Path

/-- The components of a path. Two slashes in a row, and a slash at either end, enclose an empty
component. -/
def components : Text → List Text
  | [] => [[]]
  | c :: rest =>
      if c = '/' then [] :: components rest
      else match components rest with
        | [] => [[c]]
        | part :: others => (c :: part) :: others

/-- Whether a path starts at the root. -/
def isAbsolute (path : Text) : Bool :=
  path.head? == some '/'

/-- A path followed by another one. An absolute path stands for itself, and no slash is added after
an empty path or after a slash. -/
def join (base path : Text) : Text :=
  if isAbsolute path || base.isEmpty then path
  else if base.getLast? = some '/' then base ++ path
  else base ++ '/' :: path

/-- The last component of a path. -/
def fileName (path : Text) : Text :=
  (components path).getLast?.getD []

end Path

end RoutineScripts
