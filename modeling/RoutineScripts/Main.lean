import RoutineScripts.Command.Execute
import RoutineScripts.Command.Supply

/-!
# The program

Reads the part of the file system that a command can touch, runs the command on it, and writes back
the files that it changed.
-/

namespace RoutineScripts

namespace Program

/-- The names that lead from the root of the file system to an absolute path. -/
def namesOf (path : String) : List Text :=
  (Path.components path.toList).filter fun name => !name.isEmpty

/-- The absolute path that names lead to. -/
def pathOf (names : List Text) : String :=
  String.ofList (names.flatMap ('/' :: ·))

/-- The refusal that an error of the file system stands for. -/
def faultOf : IO.Error → Fault
  | .permissionDenied _ code details => .system details.toList code.toNat
  | .hardwareFault code details => .system details.toList code.toNat
  | other => .system other.toString.toList 5

/-- The refusals with one more place. -/
def refusing (refusals : List Text → Option Fault) (place : List Text) (error : IO.Error) :
    List Text → Option Fault :=
  fun other => if other = place then some (faultOf error) else refusals other

/-- Adds what is at an absolute path to a disk, with everything under it if it is a folder and
`deep` says so. What the file system refuses to list or to read is recorded with the disk. -/
partial def load (deep : Bool) (disk : Disk) (path : String) : IO Disk := do
  match ← (IO.FS.realPath path).toBaseIO with
  | .error _ => return disk
  | .ok place =>
      let names := namesOf place.toString
      if ← place.isDir then
        let disk := disk.putFolder names
        if deep then
          match ← (place.readDir).toBaseIO with
          | .ok entries =>
              entries.foldlM (fun disk entry => load deep disk entry.path.toString) disk
          | .error error =>
              let listing := refusing disk.failures.listing names error
              return { disk with failures := { disk.failures with listing } }
        else
          return disk
      else
        match ← (IO.FS.readBinFile place).toBaseIO with
        | .ok content => return disk.putFile names content.toList
        | .error error =>
            let reading := refusing disk.failures.reading names error
            return { disk.putFile names [] with failures := { disk.failures with reading } }

/-- Adds every folder on the way to a path and what is there. -/
def loadPath (deep : Bool) (disk : Disk) (base : String) (path : Text) : IO Disk := do
  let full := Path.join base.toList path
  let parts := Path.components full
  let ways := (List.range parts.length).map fun count =>
    String.ofList (['/'].intercalate (parts.take count) ++ ['/'])
  let disk ← ways.foldlM (load false) disk
  load deep disk (String.ofList full)

/-- Adds the files that a command may read. -/
def loadFor (disk : Disk) (base : String) : Command → IO Disk
  | .parse file => loadPath false disk base file
  | .mark file _ _ => loadPath false disk base file
  | .sync options => options.folders.foldlM
      (fun disk folder => loadPath true disk base (Path.join options.root folder)) disk

/-- Writes the files of a tree that differ from those of another. `path` leads to both. -/
def store (old : Disk) (path : List Text) : Folder → IO Unit
  | .empty => pure ()
  | .file name content others => do
      if old.root.get? (path ++ [name]) ≠ some (.file content) then
        IO.FS.writeBinFile (pathOf (path ++ [name])) ⟨content.toArray⟩
      store old path others
  | .folder name inner others => do
      store old (path ++ [name]) inner
      store old path others

end Program

end RoutineScripts

open RoutineScripts in
/-- Runs the program. -/
def main (arguments : List String) : IO UInt32 := do
  let base := (← IO.currentDir).toString
  let texts := arguments.map String.toList
  let start : Disk := ⟨.empty, Program.namesOf base, .none, trivial⟩
  let disk ← Program.load false start base
  let disk ← match Invocation.ofArguments texts with
    | .command command => Program.loadFor disk base command
    | _ => pure disk
  let seed ← IO.getRandomBytes 32
  let done := execute (Guid.seeded seed.toList) disk texts
  Program.store disk [] done.disk.root
  (← IO.getStdout).putStr (String.ofList done.output)
  (← IO.getStderr).putStr (String.ofList done.errors)
  return done.exitCode.toUInt32
