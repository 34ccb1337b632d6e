import RoutineScripts.Files.Disk
import RoutineScripts.Files.Pattern

/-!
# Finding files

The files under a folder whose names match a pattern, at any depth. Entries of a folder come in
the order of their names, and the content of a folder comes in its place. A path that leads to a
file gives that file. A folder that cannot be listed ends the walk, wherever it is.
-/

namespace RoutineScripts

/-- The files of a tree, each with its path and its name. `path` is the path of the tree. -/
def Folder.files (path : Text) : Folder → List (Text × Text)
  | empty => []
  | file name _ others => (Path.join path name, name) :: others.files path
  | folder name inner others => inner.files (Path.join path name) ++ others.files path

/-- The folders in a tree, each with its path and its place, in the order in which a walk lists
them. `path` and `place` are those of the tree. -/
def Folder.folders (path : Text) (place : List Text) : Folder → List (Text × List Text)
  | empty => []
  | file _ _ others => others.folders path place
  | folder name inner others =>
      (Path.join path name, place ++ [name]) ::
        inner.folders (Path.join path name) (place ++ [name]) ++ others.folders path place

/-- The error that ends a walk, with the path it is about. -/
structure WalkError where
  path : Text
  fault : Fault
  deriving DecidableEq, Repr

namespace Disk

/-- The error for the first folder of a walk that cannot be listed. -/
def unlisted? (disk : Disk) (path : Text) (place : List Text) (inner : Folder) :
    Option WalkError :=
  ((path, place) :: inner.folders path place).findSome? fun (path, place) =>
    (disk.failures.listing place).map (WalkError.mk path)

/-- The paths of the files under a path whose names match a pattern. -/
def collect (disk : Disk) (path : Text) (pattern : Pattern) : Except WalkError (List Text) :=
  match disk.locate path with
  | .error fault => .error ⟨path, fault⟩
  | .ok (place, node) =>
      match disk.failures.inspecting place, node with
      | some fault, _ => .error ⟨path, fault⟩
      | none, .file _ => .ok (if pattern.accepts (Path.fileName path) then [path] else [])
      | none, .folder inner =>
          match disk.unlisted? path place inner with
          | some error => .error error
          | none =>
              .ok (((inner.files path).filter fun (_, name) => pattern.accepts name).map (·.1))

end Disk

end RoutineScripts
