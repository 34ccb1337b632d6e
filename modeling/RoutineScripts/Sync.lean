import RoutineScripts.Catalog.Basic
import RoutineScripts.Files.SourceFile
import RoutineScripts.Files.Walk
import RoutineScripts.Marker.Placement

/-!
# Synchronising a library

A library is a folder with sub-folders of scripts. `synchronize` hands every definition in it to a
catalog and places the identifier that the catalog answers in the script. Entries whose identifier
no script was answered with are taken out at the end, but never when no script had a definition.

A run goes folder by folder. All files of a folder are read before the first of its definitions is
handed over. An error stops the run where it is; what was done up to there stays done, and is
reported with the error.
-/

namespace RoutineScripts

/-- What to synchronise. A dry run hands over definitions and writes no file. -/
structure SyncOptions where
  root : Text
  folders : List Text
  pattern : Text
  dryRun : Bool
  deriving DecidableEq, Repr

/-- The options when nothing else is said. -/
def SyncOptions.standard : SyncOptions where
  root := "db-lib".toList
  folders := ["functions".toList, "procedures".toList]
  pattern := "*.sql".toList
  dryRun := false

/-- What a run did. The paths are those of files that got another marker, also in a dry run, and of
files without a definition; the identifiers are those of removed entries. -/
structure Report where
  scanned : Nat
  created : Nat
  updated : Nat
  unchanged : Nat
  rewritten : List Text
  skipped : List Text
  removed : List Text
  deriving DecidableEq, Repr

namespace Report

/-- Nothing done. -/
def empty : Report := ⟨0, 0, 0, 0, [], [], []⟩

/-- Counts the outcome of handing over a definition. -/
def count (report : Report) : Outcome → Report
  | .created => { report with created := report.created + 1 }
  | .updated => { report with updated := report.updated + 1 }
  | .unchanged => { report with unchanged := report.unchanged + 1 }

end Report

/-- The state of a run. `seen` are the identifiers that the catalog has answered. -/
structure Run (σ : Type) where
  disk : Disk
  catalog : σ
  report : Report
  seen : List Guid

/-- An error and the state in which it stopped a run. -/
structure Halt (σ : Type) where
  error : SyncError
  run : Run σ

namespace SourceFile

/-- Reads the file at a path. -/
def load (disk : Disk) (path : Text) : Except SyncError SourceFile :=
  match disk.read path with
  | .error fault => .error (.unreadable path fault)
  | .ok bytes =>
      let (content, encoding) := SourceEncoding.decode bytes
      .ok ⟨path, content, encoding⟩

/-- Writes a text over a file, in the encoding that the file was read in. A failure comes with the
disk that it leaves. -/
def save (file : SourceFile) (content : Text) (disk : Disk) : Except (SyncError × Disk) Disk :=
  match disk.write file.path (file.encoding.encode content) with
  | .error (fault, left) => .error (.unwritable file.path fault, left)
  | .ok next => .ok next

end SourceFile

namespace Run

variable {σ : Type} [Catalog σ]

/-- Places an identifier in a file, unless its script carries it already. -/
def placeMarker (dryRun : Bool) (run : Run σ) (file : SourceFile) (current : Option Text)
    (id : Text) : Except (Halt σ) (Run σ) :=
  if current.any fun marker => Guid.same marker id then .ok run
  else
    let updated := Marker.ensure file.content id
    let report := { run.report with rewritten := run.report.rewritten ++ [file.path] }
    if updated = file.content then .ok run
    else if dryRun then .ok { run with report }
    else
      match file.save updated run.disk with
      | .error (error, disk) => .error ⟨error, { run with disk }⟩
      | .ok disk => .ok { run with disk, report }

/-- Hands the definition of a file to the catalog and places the identifier it answers. A file
without a definition is skipped. -/
def handOver (dryRun : Bool) (run : Run σ) (file : SourceFile) : Except (Halt σ) (Run σ) :=
  let report := { run.report with scanned := run.report.scanned + 1 }
  match Definition.ofText? file.content with
  | none => .ok { run with report := { report with skipped := report.skipped ++ [file.path] } }
  | some definition =>
      match Catalog.upsert run.catalog definition with
      | (.error error, catalog) => .error ⟨error, { run with catalog, report }⟩
      | (.ok upsert, catalog) =>
          let seen := run.seen ++ (Guid.parse? upsert.id).toList
          placeMarker dryRun { run with catalog, report := report.count upsert.outcome, seen } file
            definition.marker upsert.id

/-- Synchronises one sub-folder. One that is not there is left out. -/
def visitFolder (options : SyncOptions) (pattern : Pattern) (run : Run σ) (folder : Text) :
    Except (Halt σ) (Run σ) :=
  let path := Path.join options.root folder
  if run.disk.isFolder path then
    match run.disk.collect path pattern with
    | .error error => .error ⟨.untraversable path error, run⟩
    | .ok paths =>
        match paths.mapM (SourceFile.load run.disk) with
        | .error error => .error ⟨error, run⟩
        | .ok files => files.foldlM (handOver options.dryRun) run
  else
    .ok run

/-- Whether no script was answered with an identifier. A text that names none never was. -/
def isOrphan (run : Run σ) (id : Text) : Bool :=
  (Guid.parse? id).all fun guid => !run.seen.contains guid

/-- Takes an entry out of the catalog if it is an orphan. -/
def sweep (run : Run σ) (id : Text) : Except (Halt σ) (Run σ) :=
  if run.isOrphan id then
    match Catalog.remove run.catalog id with
    | (.error error, catalog) => .error ⟨error, { run with catalog }⟩
    | (.ok _, catalog) =>
        let report := { run.report with removed := run.report.removed ++ [id] }
        .ok { run with catalog, report }
  else
    .ok run

/-- Takes all orphans out of the catalog, unless no identifier was answered. -/
def sweepAll (run : Run σ) : Except (Halt σ) (Run σ) :=
  if run.seen.isEmpty then .ok run
  else (Catalog.ids run.catalog).foldlM sweep run

end Run

/-- Synchronises a library with a catalog. -/
def synchronize {σ : Type} [Catalog σ] (options : SyncOptions) (disk : Disk) (catalog : σ) :
    Except (Halt σ) (Run σ) :=
  let start : Run σ := ⟨disk, catalog, .empty, []⟩
  match Pattern.ofText options.pattern with
  | .error error => .error ⟨.invalidPattern options.pattern error, start⟩
  | .ok pattern =>
      match options.folders.foldlM (Run.visitFolder options pattern) start with
      | .error halt => .error halt
      | .ok run => run.sweepAll

end RoutineScripts
