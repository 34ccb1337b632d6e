import RoutineScripts.Proofs.Sync.Halt
import RoutineScripts.Proofs.Sync.Rewritten

/-!
# What a run writes

The files of a sub-folder are loaded from the paths collected in it, in order
(`Disk.map_path_of_loadFolder`), and are those at the places of these paths (`Disk.gathered`). A run
writes over files that it scans and reports them, and changes nothing else (`Run.Touches`), unless
it ends with an error in writing (`Run.touches_ending`); and what it reports as rewritten was
written (`Run.rewrote_ending`). What is loaded from a folder depends on the files gathered in it
only (`Disk.SameShape.loadFolder`).
-/

namespace RoutineScripts

/-- Steps that agree on a list have the same outcome. -/
theorem mapM_congr {ε α β : Type} {first second : α → Except ε β} {list : List α}
    (same : ∀ element ∈ list, first element = second element) :
    list.mapM first = list.mapM second := by
  induction list with
  | nil => rfl
  | cons head tail ih =>
      rw [List.forall_mem_cons] at same
      rw [List.mapM_cons, List.mapM_cons, same.1, ih same.2]

/-- Files that were loaded have the paths that were asked for. -/
theorem map_path_of_mapM {disk : Disk} {paths : List Text} {files : List SourceFile}
    (loaded : paths.mapM (SourceFile.load disk) = .ok files) : files.map (·.path) = paths := by
  induction paths generalizing files with
  | nil =>
      cases loaded
      rfl
  | cons path paths ih =>
      rw [List.mapM_cons] at loaded
      obtain ⟨file, one, others⟩ := exists_of_bind_eq_ok loaded
      obtain ⟨rest, later, last⟩ := exists_of_bind_eq_ok others
      cases last
      obtain ⟨bytes, _, rfl⟩ := SourceFile.load_eq_ok_iff.mp one
      rw [List.map_cons, ih later]

namespace Disk

/-- The paths collected in a sub-folder. There are none in one that is not there. -/
def collected (options : SyncOptions) (pattern : Pattern) (disk : Disk) (folder : Text) :
    List Text :=
  let path := Path.join options.root folder
  if disk.isFolder path then
    match disk.collect path pattern with
    | .error _ => []
    | .ok paths => paths
  else
    []

/-- The places of the files collected in a sub-folder. -/
def gathered (options : SyncOptions) (disk : Disk) (folder : Text) : List (List Text) :=
  match Pattern.ofText options.pattern with
  | .error _ => []
  | .ok pattern => (disk.collected options pattern folder).filterMap disk.place?

section

variable {options : SyncOptions} {pattern : Pattern} {disk other : Disk} {folder : Text}

theorem mem_gathered {path : Text} {place : List Text}
    (read : Pattern.ofText options.pattern = .ok pattern)
    (listed : path ∈ disk.collected options pattern folder)
    (found : disk.place? path = some place) : place ∈ disk.gathered options folder := by
  rw [gathered, read]
  exact List.mem_filterMap.mpr ⟨path, listed, found⟩

/-- What is loaded are the files at the collected paths, in order. -/
theorem map_path_of_loadFolder {files : List SourceFile}
    (loaded : disk.loadFolder options pattern folder = .ok files) :
    files.map (·.path) = disk.collected options pattern folder := by
  rw [loadFolder] at loaded
  rw [collected]
  by_cases there : disk.isFolder (Path.join options.root folder) = true
  · rw [if_pos there] at loaded ⊢
    cases found : disk.collect (Path.join options.root folder) pattern with
    | error fault =>
        rw [found] at loaded
        cases loaded
    | ok paths =>
        rw [found] at loaded
        exact map_path_of_mapM loaded
  · rw [if_neg there] at loaded ⊢
    cases loaded
    rfl

theorem mem_collected_of_loadFolder {files : List SourceFile}
    (loaded : disk.loadFolder options pattern folder = .ok files) :
    ∀ file ∈ files, file.path ∈ disk.collected options pattern folder := by
  intro file member
  rw [← map_path_of_loadFolder loaded]
  exact List.mem_map_of_mem member

namespace SameShape

/-- Disks of the same shape list the same paths. -/
theorem collected (same : SameShape disk other) (options : SyncOptions) (pattern : Pattern)
    (folder : Text) :
    disk.collected options pattern folder = other.collected options pattern folder := by
  unfold Disk.collected
  simp only [same.isFolder, same.collect]

/-- **Loading a folder.** The result depends on the files that are gathered in it only. -/
theorem loadFolder (same : SameShape disk other)
    (read : Pattern.ofText options.pattern = .ok pattern)
    (agrees : ∀ place ∈ disk.gathered options folder, other.fileAt place = disk.fileAt place) :
    other.loadFolder options pattern folder = disk.loadFolder options pattern folder := by
  unfold Disk.loadFolder
  simp only
  rw [← same.isFolder, ← same.collect]
  split
  case isFalse => rfl
  case isTrue there =>
    split
    case h_1 => rfl
    case h_2 paths found =>
      refine mapM_congr fun path member => ?_
      have listed : path ∈ disk.collected options pattern folder := by
        unfold Disk.collected
        simpa only [if_pos there, found] using member
      rw [SourceFile.load, SourceFile.load,
        same.read_eq fun place leads => agrees place (mem_gathered read listed leads)]

end SameShape

end

end Disk

namespace Run

variable {σ : Type}

/-- From `start` to `last` no file was made or moved. The files that changed are some of the given
ones, and are reported as rewritten. -/
structure Touches (start : Run σ) (files : List SourceFile) (last : Run σ) : Prop where
  shape : start.disk.SameShape last.disk
  reported : ∀ path ∈ start.report.rewritten, path ∈ last.report.rewritten
  changed : ∀ place, last.disk.fileAt place ≠ start.disk.fileAt place →
    ∃ file ∈ files, file.path ∈ last.report.rewritten ∧
      start.disk.place? file.path = some place

namespace Touches

variable {start run last : Run σ} {first second : List SourceFile}

/-- Where the disk stays as it is, no file changes. -/
theorem of_same {files : List SourceFile} (disk : last.disk = start.disk)
    (reported : ∀ path ∈ start.report.rewritten, path ∈ last.report.rewritten) :
    Touches start files last :=
  ⟨disk ▸ .refl _, reported, fun _ differs => absurd (by rw [disk]) differs⟩

theorem append (before : Touches start first run) (after : Touches run second last) :
    Touches start (first ++ second) last := by
  refine ⟨before.shape.trans after.shape,
    fun path member => after.reported path (before.reported path member), fun place differs => ?_⟩
  -- A file that the second part leaves alone was changed in the first.
  by_cases later : last.disk.fileAt place = run.disk.fileAt place
  · obtain ⟨file, member, listed, found⟩ := before.changed place (later ▸ differs)
    exact ⟨file, List.mem_append_left _ member, after.reported _ listed, found⟩
  · obtain ⟨file, member, listed, found⟩ := after.changed place later
    exact ⟨file, List.mem_append_right _ member, listed, (before.shape.place? _).trans found⟩

end Touches

variable [Catalog σ] {dryRun : Bool} {options : SyncOptions} {pattern : Pattern}
  {run next : Run σ} {file : SourceFile} {files : List SourceFile} {folders : List Text}

/-- **One file.** It is written over, and reported, or nothing is. -/
theorem HandsOver.touches (step : HandsOver dryRun run file next)
    (placed : ∃ place, run.disk.place? file.path = some place) : Touches run [file] next := by
  cases step with
  | skipped => exact .of_same rfl fun _ member => member
  | kept => exact .of_same rfl fun _ member => by rwa [rewritten_answered]
  | previewed =>
      refine .of_same rfl fun path member => List.mem_append_left _ ?_
      rwa [rewritten_answered]
  | @marked definition upsert catalog disk _ defined answer _ changes written =>
      obtain ⟨place, found⟩ := placed
      obtain ⟨_, shape, contents⟩ := Disk.of_write found written
      refine ⟨shape, fun path member => List.mem_append_left _ ?_, fun there differs => ?_⟩
      · rwa [rewritten_answered]
      · refine ⟨file, List.mem_cons_self, List.mem_append_right _ List.mem_cons_self, ?_⟩
        by_cases same : there = place
        · rw [same]
          exact found
        · exact absurd (by rw [contents, if_neg same]) differs

/-- A run that stops without a write error leaves the disk as it is. -/
theorem Stops.frame {halt : Halt σ} (stops : Stops dryRun run file halt)
    (written : WritesAll (.error halt)) :
    halt.run.disk = run.disk ∧ halt.run.report.rewritten = run.report.rewritten := by
  cases stops with
  | refused => exact ⟨rfl, rfl⟩
  | unwritable => exact absurd rfl (written _ _)

/-- Files that are handed over are the only ones that change. -/
theorem touches_of_foldlM (done : files.foldlM (handOver dryRun) run = .ok next)
    (placed : ∀ file ∈ files, ∃ place, run.disk.place? file.path = some place) :
    Touches run files next := by
  induction files generalizing run with
  | nil =>
      cases done
      exact .of_same rfl fun _ member => member
  | cons file files ih =>
      rw [List.foldlM_cons] at done
      obtain ⟨middle, first, later⟩ := exists_of_bind_eq_ok done
      rw [List.forall_mem_cons] at placed
      have step := (handsOver_of_handOver first).touches placed.1
      refine step.append (ih later fun other member => ?_)
      rw [← step.shape.place?]
      exact placed.2 other member

/-- Where handing over files ends, other than in writing one, everything on the disk and among the
rewritten files is as it was after the first of them, all of which ended well. -/
theorem exists_reached (written : WritesAll (files.foldlM (handOver dryRun) run)) :
    ∃ before after reached, files = before ++ after ∧
      before.foldlM (handOver dryRun) run = .ok reached ∧
      (ending (files.foldlM (handOver dryRun) run)).disk = reached.disk ∧
      (ending (files.foldlM (handOver dryRun) run)).report.rewritten =
        reached.report.rewritten := by
  cases result : files.foldlM (handOver dryRun) run with
  | ok next => exact ⟨files, [], next, (List.append_nil _).symm, result, rfl, rfl⟩
  | error halt =>
      obtain ⟨before, file, after, middle, rfl, reached, failed⟩ := exists_of_foldlM_eq_error result
      obtain ⟨disk, rewritten⟩ := (stops_of_handOver failed).frame (result ▸ written)
      exact ⟨before, file :: after, middle, rfl, reached, disk, rewritten⟩

/-- **Handing over files, to the end or not.** -/
theorem touches_ending (written : WritesAll (files.foldlM (handOver dryRun) run))
    (placed : ∀ file ∈ files, ∃ place, run.disk.place? file.path = some place) :
    Touches run files (ending (files.foldlM (handOver dryRun) run)) := by
  obtain ⟨before, after, reached, rfl, done, disk, rewritten⟩ := exists_reached written
  have touches := touches_of_foldlM done fun file member =>
    placed file (List.mem_append_left _ member)
  have rest : Touches reached after
      (ending ((before ++ after).foldlM (handOver dryRun) run)) :=
    .of_same disk fun path member => by rwa [rewritten]
  exact touches.append rest

theorem mem_of_mem_upserts {catalog : σ} {answer : SourceFile × Upsert}
    (member : answer ∈ upserts catalog files) : answer.1 ∈ files := by
  induction files generalizing catalog with
  | nil => cases member
  | cons file files ih =>
      rw [upserts] at member
      split at member
      case h_1 => exact List.mem_cons_of_mem _ (ih member)
      case h_2 =>
        split at member
        case h_1 => cases member
        case h_2 =>
          rcases List.mem_cons.mp member with rfl | later
          · exact List.mem_cons_self
          · exact List.mem_cons_of_mem _ (ih later)

/-- What was reported as rewritten, to the end or not, was written for an answer. -/
theorem rewrote_ending (written : WritesAll (files.foldlM (handOver false) run))
    (none : run.report.rewritten = [])
    (placed : ∀ file ∈ files, ∃ place, run.disk.place? file.path = some place ∧
      run.disk.failures.reading place = .none) :
    ∀ path ∈ (ending (files.foldlM (handOver false) run)).report.rewritten,
      Rewrote (ending (files.foldlM (handOver false) run)).disk (upserts run.catalog files)
        path := by
  obtain ⟨before, after, reached, rfl, done, disk, rewritten⟩ := exists_reached written
  rw [disk, rewritten, upserts_append done]
  refine rewrote_of_foldlM done (fun file member => placed file (List.mem_append_left _ member))
    (fun answer member => List.mem_append_left _ member) fun path member => ?_
  rw [none] at member
  cases member

/-- A file that is scanned can be read at a place and was collected in one of the folders. -/
theorem exists_folder_of_mem_filesOf (member : file ∈ run.filesOf options pattern folders) :
    (∃ place, run.disk.place? file.path = some place ∧
        run.disk.failures.reading place = none) ∧
      ∃ folder ∈ folders, file.path ∈ run.disk.collected options pattern folder := by
  induction folders generalizing run with
  | nil => cases member
  | cons folder folders ih =>
      rw [filesOf, List.mem_append] at member
      rcases member with inside | later
      · cases loaded : run.disk.loadFolder options pattern folder with
        | error error =>
            rw [(visitFolder_of_loadFolder_error loaded).2] at inside
            cases inside
        | ok files =>
            rw [filesIn_of_loadFolder loaded] at inside
            exact ⟨exists_place?_of_load (load_of_mem_loadFolder loaded file inside), folder,
              List.mem_cons_self, Disk.mem_collected_of_loadFolder loaded file inside⟩
      · cases visited : run.visitFolder options pattern folder with
        | error halt =>
            rw [visited] at later
            cases later
        | ok next =>
            rw [visited] at later
            have shape := (marked_of_visitFolder visited).shape
            obtain ⟨⟨place, found, readable⟩, other, listed, inside⟩ := ih later
            refine ⟨⟨place, (shape.place? _).trans found, shape.failures ▸ readable⟩, other,
              List.mem_cons_of_mem _ listed, ?_⟩
            rw [shape.collected]
            exact inside

/-- Visiting folders changes only files that are gathered in them. -/
theorem fileAt_of_visitFolders (read : Pattern.ofText options.pattern = .ok pattern)
    (visited : folders.foldlM (visitFolder options pattern) run = .ok next) {place : List Text}
    (elsewhere : ∀ folder ∈ folders, place ∉ run.disk.gathered options folder) :
    next.disk.fileAt place = run.disk.fileAt place := by
  refine Decidable.byContradiction fun differs => ?_
  have touches := touches_of_foldlM (foldlM_of_visitFolders visited) fun file member =>
    (exists_folder_of_mem_filesOf member).1.imp fun _ => And.left
  obtain ⟨file, scanned, _, found⟩ := touches.changed place differs
  obtain ⟨folder, listed, inside⟩ := (exists_folder_of_mem_filesOf scanned).2
  exact elsewhere folder listed (Disk.mem_gathered read inside found)

/-- The sweep, to its end or not, writes and rewrites no file. -/
theorem sweepAll_ending_frame (run : Run σ) :
    (ending run.sweepAll).disk = run.disk ∧
      (ending run.sweepAll).report.rewritten = run.report.rewritten := by
  rw [sweepAll]
  split
  case isTrue => exact ⟨rfl, rfl⟩
  case isFalse =>
    have kept : ∀ (last : Run σ) (id : Text),
        last.disk = run.disk ∧ last.report.rewritten = run.report.rewritten →
          (ending (last.sweep id)).disk = run.disk ∧
            (ending (last.sweep id)).report.rewritten = run.report.rewritten := by
      intro last id kept
      rw [sweep]
      split
      case isFalse => exact kept
      case isTrue => split <;> exact kept
    exact ending_foldlM kept ⟨rfl, rfl⟩ _

end Run

section Synchronize

variable {σ : Type} [Catalog σ]

/-- What a run writes, it writes when it hands over the files that it scans. -/
theorem ending_synchronize_frame (options : SyncOptions) (disk : Disk) (catalog : σ) :
    let last := Run.ending ((scannedFiles options disk catalog).foldlM
      (Run.handOver options.dryRun) ⟨disk, catalog, .empty, []⟩)
    (Run.ending (synchronize options disk catalog)).disk = last.disk ∧
      (Run.ending (synchronize options disk catalog)).report.rewritten =
        last.report.rewritten := by
  intro last
  rcases synchronize_cases options disk catalog with ⟨error, stopped⟩ | ⟨visited, handed, ends⟩
  · rw [stopped]
    exact ⟨rfl, rfl⟩
  · have same : last = visited := congrArg Run.ending handed
    rw [ends, same]
    exact visited.sweepAll_ending_frame

/-- A file that was scanned stands at a place that can be read. -/
theorem exists_place?_of_mem_scannedFiles {options : SyncOptions} {disk : Disk} {catalog : σ}
    {file : SourceFile} (member : file ∈ scannedFiles options disk catalog) :
    ∃ place, disk.place? file.path = some place ∧ disk.failures.reading place = none := by
  unfold scannedFiles at member
  split at member
  case h_1 => cases member
  case h_2 => exact (Run.exists_folder_of_mem_filesOf member).1

end Synchronize

end RoutineScripts
