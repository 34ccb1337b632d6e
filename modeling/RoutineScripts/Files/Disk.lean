import RoutineScripts.Files.Folder
import RoutineScripts.Files.Path

/-!
# Disks

A disk is a directory tree with a working directory in it. Paths are followed component by
component: every component but the last must lead to a folder, `.` and an empty component stay in
place, and `..` goes up to the parent, or stays at the root.

What is at a place may still be out of reach: the system refuses an operation for want of rights, on
a damaged medium, or when there is no space left. Which operations it refuses is given with the disk
(`Failures`), so that everything said of a disk holds for any such refusals.
-/

namespace RoutineScripts

/-- Why a path cannot be used. `system` are the refusals of the system, by description and
number. -/
inductive Fault
  | notFound
  | notDirectory
  | isDirectory
  | system (description : Text) (number : Nat)
  deriving DecidableEq, Repr

/-- The text of a fault. -/
def Fault.message : Fault → Text
  | notFound => "No such file or directory (os error 2)".toList
  | notDirectory => "Not a directory (os error 20)".toList
  | isDirectory => "Is a directory (os error 21)".toList
  | system description number =>
      description ++ " (os error ".toList ++ Nat.toDigits 10 number ++ [')']

/-- The refusal of an operation for want of rights. -/
def Fault.permissionDenied : Fault :=
  .system "Permission denied".toList 13

/-- A refusal to write a file. When some of the new bytes had been `written` by then, these are what
the file holds. -/
structure WriteFailure where
  fault : Fault
  written : Option Nat
  deriving DecidableEq, Repr

/-- The operations that the system refuses, by the place they are applied to: telling what is there,
listing a folder, reading a file and writing one. -/
structure Failures where
  inspecting : List Text → Option Fault
  listing : List Text → Option Fault
  reading : List Text → Option Fault
  writing : List Text → Option WriteFailure

/-- Nothing is refused. -/
def Failures.none : Failures where
  inspecting _ := .none
  listing _ := .none
  reading _ := .none
  writing _ := .none

/-- A directory tree, the names that lead from its root to the working directory, and what the
system refuses in it. -/
structure Disk where
  root : Folder
  workingDirectory : List Text
  failures : Failures
  ordered : root.Ordered

namespace Disk

/-- Follows components from a node. `above` holds the folders passed on the way from the root, each
with the name under which it was left, last one first. The result is the names that lead from the
root to the place reached, and what is there. -/
def follow : List (Text × Folder) → Node → List Text → Except Fault (List Text × Node)
  | above, node, [] => .ok ((above.map (·.1)).reverse, node)
  | _, .file _, _ :: _ => .error .notDirectory
  | above, .folder inner, name :: rest =>
      if name.isEmpty || name == ['.'] then follow above (.folder inner) rest
      else if name == ['.', '.'] then
        match above with
        | [] => follow [] (.folder inner) rest
        | (_, parent) :: higher => follow higher (.folder parent) rest
      else
        match inner.find? name with
        | some node => follow ((name, inner) :: above) node rest
        | none => .error .notFound

/-- The components of a path from the root of the tree. -/
def route (disk : Disk) (path : Text) : List Text :=
  if Path.isAbsolute path then Path.components path
  else disk.workingDirectory ++ Path.components path

/-- The place that a path leads to, and what is there. The empty path leads nowhere. -/
def locate (disk : Disk) (path : Text) : Except Fault (List Text × Node) :=
  if path.isEmpty then .error .notFound
  else follow [] (.folder disk.root) (disk.route path)

/-- The bytes of the file at a path. -/
def read (disk : Disk) (path : Text) : Except Fault Bytes :=
  match disk.locate path with
  | .ok (place, .file content) =>
      match disk.failures.reading place with
      | some fault => .error fault
      | none => .ok content
  | .ok (_, .folder _) => .error .isDirectory
  | .error fault => .error fault

/-- Whether a path can be told to lead to a folder. -/
def isFolder (disk : Disk) (path : Text) : Bool :=
  match disk.locate path with
  | .ok (place, .folder _) => (disk.failures.inspecting place).isNone
  | _ => false

/-- The disk with a file at a place given by names from the root. Missing folders are made. -/
def putFile (disk : Disk) (place : List Text) (content : Bytes) : Disk :=
  { disk with
    root := disk.root.insert (.file content) place
    ordered := Folder.ordered_insert (show Folder.NodeOrdered (.file content) from trivial) place
      disk.ordered }

/-- The disk with an empty folder at a place, unless there is a folder already. Missing folders on
the way are made. -/
def putFolder (disk : Disk) (place : List Text) : Disk :=
  match disk.root.get? place with
  | some _ => disk
  | none =>
      { disk with
        root := disk.root.insert (.folder .empty) place
        ordered := Folder.ordered_insert (show Folder.NodeOrdered (.folder .empty) from trivial)
          place disk.ordered }

/-- The place of a new file: the folder it goes into must be there, and no slash may follow its
name. -/
def locateNew (disk : Disk) (path : Text) : Except Fault (List Text) :=
  let route := (disk.route path).reverse
  let names := route.dropWhile List.isEmpty
  match follow [] (.folder disk.root) (names.drop 1).reverse with
  | .ok (_, .file _) => .error .notDirectory
  | .error fault => .error fault
  | .ok (place, .folder _) =>
      if names = route then .ok (place ++ names.head?.toList) else .error .isDirectory

/-- The place that a write goes to: that of the file at the path, or of a new one in a folder that
is there. -/
def target (disk : Disk) (path : Text) : Except Fault (List Text) :=
  match disk.locate path with
  | .ok (place, .file _) => .ok place
  | .ok (_, .folder _) => .error .isDirectory
  | .error fault => if path.isEmpty then .error fault else disk.locateNew path

/-- Writes a file. A write that fails may leave another disk behind: one with the first bytes of the
content in the file. -/
def write (disk : Disk) (path : Text) (content : Bytes) : Except (Fault × Disk) Disk :=
  match disk.target path with
  | .error fault => .error (fault, disk)
  | .ok place =>
      match disk.failures.writing place with
      | none => .ok (disk.putFile place content)
      | some ⟨fault, none⟩ => .error (fault, disk)
      | some ⟨fault, some count⟩ => .error (fault, disk.putFile place (content.take count))

/-- An empty disk, with the working directory in a folder of its own. -/
def empty : Disk where
  root := .folder "work".toList .empty .empty
  workingDirectory := ["work".toList]
  failures := .none
  ordered := by simp [Folder.Ordered, Folder.names]

end Disk

end RoutineScripts
