import RoutineScripts.Proofs.Catalog.Carried
import RoutineScripts.Proofs.Sync

/-!
# Runs in which every identifier is kept

When every definition is answered with the identifier it carries, a run writes no file, so that all
its folders are read from the disk it starts with (`Run.visitFolders_of_kept`). Such a run ends well
if the folders can be read and no entry is left over, and its report counts the answers
(`synchronize_of_kept`).
-/

namespace RoutineScripts

/-- A result that is there is a good one. -/
theorem eq_ok_of_toOption {ε α : Type} {result : Except ε α} {value : α}
    (done : result.toOption = some value) : result = .ok value := by
  cases result with
  | error error => cases done
  | ok other => exact congrArg _ (Option.some.inj done)

/-- Reads the scripts in a sub-folder of a library. There are none in one that is not there. -/
def Disk.loadFolder (options : SyncOptions) (pattern : Pattern) (disk : Disk) (folder : Text) :
    Except SyncError (List SourceFile) :=
  let path := Path.join options.root folder
  if disk.isFolder path then
    match disk.collect path pattern with
    | .error error => .error (.untraversable path error)
    | .ok paths => paths.mapM (SourceFile.load disk)
  else
    .ok []

/-- The number of definitions with an outcome. -/
def Report.number (report : Report) : Outcome → Nat
  | .created => report.created
  | .updated => report.updated
  | .unchanged => report.unchanged

/-- Counting an outcome adds one to its own number. -/
theorem Report.number_count (report : Report) (counted outcome : Outcome) :
    (report.count counted).number outcome =
      report.number outcome + if counted = outcome then 1 else 0 := by
  cases counted <;> cases outcome <;> rfl

namespace Run

/-- The files of a folder are those that can be loaded. -/
theorem filesIn_eq {σ : Type} (options : SyncOptions) (pattern : Pattern) (run : Run σ)
    (folder : Text) :
    run.filesIn options pattern folder =
      match run.disk.loadFolder options pattern folder with
      | .error _ => []
      | .ok files => files := by
  unfold filesIn Disk.loadFolder
  simp only
  cases run.disk.isFolder (Path.join options.root folder) with
  | false => rfl
  | true => cases run.disk.collect (Path.join options.root folder) pattern <;> rfl

/-- The files of a folder that can be loaded are those. -/
theorem filesIn_of_loadFolder {σ : Type} {options : SyncOptions} {pattern : Pattern} {run : Run σ}
    {folder : Text} {files : List SourceFile}
    (loaded : run.disk.loadFolder options pattern folder = .ok files) :
    run.filesIn options pattern folder = files := by
  rw [filesIn_eq, loaded]

section Folders

variable {σ : Type} [Catalog σ] {options : SyncOptions} {pattern : Pattern} {run next : Run σ}
  {folder : Text}

/-- Visiting a folder is reading its files and handing them over. -/
theorem visitFolder_eq (options : SyncOptions) (pattern : Pattern) (run : Run σ) (folder : Text) :
    run.visitFolder options pattern folder =
      match run.disk.loadFolder options pattern folder with
      | .error error => .error ⟨error, run⟩
      | .ok files => files.foldlM (handOver options.dryRun) run := by
  unfold visitFolder Disk.loadFolder
  simp only
  cases run.disk.isFolder (Path.join options.root folder) with
  | false => rfl
  | true => cases run.disk.collect (Path.join options.root folder) pattern <;> rfl

/-- Visiting a folder that can be loaded hands its files over. -/
theorem visitFolder_of_loadFolder {files : List SourceFile}
    (loaded : run.disk.loadFolder options pattern folder = .ok files) :
    run.visitFolder options pattern folder = files.foldlM (handOver options.dryRun) run := by
  rw [visitFolder_eq, loaded]

/-- A folder that was visited can be loaded. -/
theorem loadFolder_of_visitFolder (visited : run.visitFolder options pattern folder = .ok next) :
    run.disk.loadFolder options pattern folder = .ok (run.filesIn options pattern folder) := by
  rw [visitFolder_eq] at visited
  rw [filesIn_eq]
  cases loaded : run.disk.loadFolder options pattern folder with
  | error error =>
      rw [loaded] at visited
      cases visited
  | ok files => rfl

end Folders

variable {options : SyncOptions} {pattern : Pattern} {dryRun : Bool}
  {start run : Run MemoryCatalog}

/-- The definitions of two lists of files are those of each. -/
theorem definitionsOf_append (first second : List SourceFile) :
    definitionsOf (first ++ second) = definitionsOf first ++ definitionsOf second :=
  List.filterMap_append

/-- A file whose definition keeps its identifier is not written. -/
theorem handOver_of_kept (dryRun : Bool) {file : SourceFile}
    (kept : MemoryCatalog.Kept (run.catalog.answers (definitionsOf [file]))) :
    ∃ next, handOver dryRun run file = .ok next ∧ next.disk = run.disk ∧
      next.report.rewritten = run.report.rewritten := by
  unfold handOver
  cases defined : Definition.ofText? file.content with
  | none => exact ⟨_, rfl, rfl, rfl⟩
  | some definition =>
      have alone : definitionsOf [file] = [definition] := by simp [definitionsOf, defined]
      rw [alone] at kept
      obtain ⟨guid, named, answered⟩ := kept _ List.mem_cons_self
      have carries := Definition.any_same_iff.mpr named
      rw [← answered] at carries
      exact ⟨_, if_pos carries, rfl, Report.rewritten_count _ _⟩

/-- **Kept identifiers leave the disk alone.** -/
theorem foldlM_of_kept (run : Run MemoryCatalog) (sound : MemoryCatalog.Sound run.catalog.table)
    (dryRun : Bool) {files : List SourceFile}
    (kept : MemoryCatalog.Kept (run.catalog.answers (definitionsOf files))) :
    ∃ next, files.foldlM (handOver dryRun) run = .ok next ∧ next.disk = run.disk ∧
      next.report.rewritten = run.report.rewritten := by
  induction files generalizing run with
  | nil => exact ⟨run, rfl, rfl, rfl⟩
  | cons file files ih =>
      have split : definitionsOf (file :: files) = definitionsOf [file] ++ definitionsOf files :=
        definitionsOf_append [file] files
      rw [split, MemoryCatalog.answers_append] at kept
      obtain ⟨next, first, disk, rewritten⟩ := handOver_of_kept dryRun fun answer member =>
        kept answer (List.mem_append_left _ member)
      have alone : [file].foldlM (handOver dryRun) run = .ok next := by
        rw [List.foldlM_cons, first]
        rfl
      obtain ⟨last, later, lastDisk, lastRewritten⟩ := ih next (sound_of_handOver sound first)
        fun answer member =>
          kept answer (List.mem_append_right _ ((handed_of_foldlM sound alone).catalog ▸ member))
      refine ⟨last, ?_, lastDisk.trans disk, lastRewritten.trans rewritten⟩
      rw [List.foldlM_cons, first]
      exact later

/-- The report counts the outcomes of the answers. -/
theorem number_of_foldlM {files : List SourceFile} (outcome : Outcome)
    (sound : MemoryCatalog.Sound start.catalog.table)
    (done : files.foldlM (handOver dryRun) start = .ok run) :
    run.report.number outcome = start.report.number outcome +
      (start.catalog.answers (definitionsOf files)).countP fun answer =>
        answer.2.outcome = outcome := by
  induction files generalizing start with
  | nil =>
      cases done
      rfl
  | cons file files ih =>
      rw [List.foldlM_cons] at done
      obtain ⟨next, first, later⟩ := exists_of_bind_eq_ok done
      rw [ih (sound_of_handOver sound first) later]
      rcases handOver_cases sound first with
        ⟨absent, sameCatalog, _, report⟩ |
        ⟨definition, guid, counted, rewritten, defined, answer, nextCatalog, _, report⟩
      · have definitions : definitionsOf (file :: files) = definitionsOf files := by
          simp [definitionsOf, absent]
        rw [definitions, sameCatalog, report]
        cases outcome <;> rfl
      · have definitions : definitionsOf (file :: files) = definition :: definitionsOf files := by
          simp [definitionsOf, defined]
        have frame (report : Report) :
            ({ report with rewritten } : Report).number outcome = report.number outcome := by
          cases outcome <;> rfl
        have unscanned : ({ start.report with scanned := start.report.scanned + 1 } :
            Report).number outcome = start.report.number outcome := by
          cases outcome <;> rfl
        rw [definitions, MemoryCatalog.answers, List.countP_cons, nextCatalog, report, frame,
          Report.number_count, unscanned, answer]
        simp only [decide_eq_true_eq]
        omega

/-- A run in which every identifier is kept reads its folders from the disk it starts with. -/
theorem visitFolders_of_kept (run : Run MemoryCatalog)
    (sound : MemoryCatalog.Sound run.catalog.table) {folders : List Text}
    {parts : List (List SourceFile)}
    (loaded : folders.mapM (run.disk.loadFolder options pattern) = .ok parts)
    (kept : MemoryCatalog.Kept (run.catalog.answers (definitionsOf parts.flatten))) :
    folders.foldlM (visitFolder options pattern) run =
      parts.flatten.foldlM (handOver options.dryRun) run := by
  induction folders generalizing run parts with
  | nil =>
      cases loaded
      rfl
  | cons folder folders ih =>
      rw [List.mapM_cons] at loaded
      obtain ⟨files, first, others⟩ := exists_of_bind_eq_ok loaded
      obtain ⟨rest, later, done⟩ := exists_of_bind_eq_ok others
      cases done
      rw [List.flatten_cons, definitionsOf_append, MemoryCatalog.answers_append] at kept
      obtain ⟨next, handed, disk, _⟩ := foldlM_of_kept run sound options.dryRun
        fun answer member => kept answer (List.mem_append_left _ member)
      have after := (handed_of_foldlM sound handed).catalog
      rw [List.foldlM_cons, visitFolder_of_loadFolder first, handed, List.flatten_cons,
        List.foldlM_append, handed]
      refine ih next (after ▸ sound.afterAll _) (disk.symm ▸ later) fun answer member =>
        kept answer (List.mem_append_right _ ?_)
      rwa [← after]

/-- Conversely, folders that were visited in such a run can be read from the disk it started
with. -/
theorem loadFolders_of_kept {folders : List Text} {last : Run MemoryCatalog}
    (sound : MemoryCatalog.Sound run.catalog.table)
    (visited : folders.foldlM (visitFolder options pattern) run = .ok last)
    (kept : MemoryCatalog.Kept
      (run.catalog.answers (definitionsOf (run.filesOf options pattern folders)))) :
    ∃ parts, folders.mapM (run.disk.loadFolder options pattern) = .ok parts ∧
      parts.flatten = run.filesOf options pattern folders := by
  induction folders generalizing run with
  | nil => exact ⟨[], rfl, rfl⟩
  | cons folder folders ih =>
      rw [List.foldlM_cons] at visited
      obtain ⟨next, first, later⟩ := exists_of_bind_eq_ok visited
      have files : run.filesOf options pattern (folder :: folders) =
          run.filesIn options pattern folder ++ next.filesOf options pattern folders := by
        rw [filesOf, first]
      rw [files, definitionsOf_append, MemoryCatalog.answers_append] at kept
      have handed := foldlM_of_visitFolder first
      obtain ⟨same, handedToo, disk, _⟩ := foldlM_of_kept run sound options.dryRun
        fun answer member => kept answer (List.mem_append_left _ member)
      obtain rfl : next = same := by
        rw [handed] at handedToo
        exact Except.ok.inj handedToo
      have after := (handed_of_foldlM sound handed).catalog
      obtain ⟨parts, loaded, flattened⟩ := ih (after ▸ sound.afterAll _) later
        fun answer member => kept answer (List.mem_append_right _ (after ▸ member))
      rw [disk] at loaded
      refine ⟨run.filesIn options pattern folder :: parts, ?_, ?_⟩
      · rw [List.mapM_cons, loadFolder_of_visitFolder first, loaded]
        rfl
      · rw [List.flatten_cons, flattened, files]

/-- Where no entry is left over, the sweep does nothing. -/
theorem sweepAll_of_seen (sound : MemoryCatalog.Sound run.catalog.table)
    (covered : run.seen ≠ [] → ∀ row ∈ run.catalog.table, row.1 ∈ run.seen.map Guid.text) :
    run.sweepAll = .ok run := by
  rw [sweepAll]
  by_cases empty : run.seen = []
  · rw [empty]
    rfl
  · rw [if_neg (by simpa using empty)]
    have listed : ∀ id ∈ (Catalog.ids run.catalog : List Text), run.sweep id = .ok run := by
      intro id member
      have inTable : id ∈ run.catalog.table.map fun row => row.2.id :=
        run.catalog.ids_eq ▸ (show id ∈ run.catalog.ids from member)
      obtain ⟨row, inside, rfl⟩ := List.mem_map.mp inTable
      obtain ⟨guid, keyed, stored⟩ := sound.inStep row inside
      have seen := covered empty row inside
      rw [keyed, Guid.mem_map_text_iff] at seen
      have kept : run.isOrphan row.2.id = false := by
        rw [stored, isOrphan, Guid.parse?_braced, Option.all_some, List.contains_iff_mem.mpr seen]
        rfl
      rw [sweep, kept]
      rfl
    generalize (Catalog.ids run.catalog : List Text) = ids at listed
    induction ids with
    | nil => rfl
    | cons id ids ih =>
        rw [List.forall_mem_cons] at listed
        rw [List.foldlM_cons, listed.1]
        exact ih listed.2

end Run

section Synchronize

variable {options : SyncOptions} {pattern : Pattern} {disk : Disk} {catalog : MemoryCatalog}

/-- **A run in which every identifier is kept.** It ends well when its folders can be read and every
entry is answered; then no file is written and no entry removed, and the catalog has been handed the
definitions. -/
theorem synchronize_of_kept {parts : List (List SourceFile)}
    (sound : MemoryCatalog.Sound catalog.table)
    (read : Pattern.ofText options.pattern = .ok pattern)
    (loaded : options.folders.mapM (disk.loadFolder options pattern) = .ok parts)
    (kept : MemoryCatalog.Kept (catalog.answers (Run.definitionsOf parts.flatten)))
    (covered : Run.definitionsOf parts.flatten ≠ [] →
      ∀ row ∈ (catalog.afterAll (Run.definitionsOf parts.flatten)).table,
        ∃ definition ∈ Run.definitionsOf parts.flatten,
          definition.guid?.map Guid.text = some row.1) :
    ∃ again : Run MemoryCatalog, synchronize options disk catalog = .ok again ∧
      again.disk = disk ∧ again.catalog = catalog.afterAll (Run.definitionsOf parts.flatten) ∧
      again.report.rewritten = [] ∧ again.report.removed = [] ∧
      ∀ outcome, again.report.number outcome =
        (catalog.answers (Run.definitionsOf parts.flatten)).countP fun answer =>
          answer.2.outcome = outcome := by
  obtain ⟨again, done, sameDisk, rewritten⟩ :=
    Run.foldlM_of_kept ⟨disk, catalog, .empty, []⟩ sound options.dryRun kept
  have handed := Run.handed_of_foldlM sound done
  have visited := Run.visitFolders_of_kept ⟨disk, catalog, .empty, []⟩ sound loaded kept
  have swept : again.sweepAll = .ok again := by
    refine Run.sweepAll_of_seen (handed.catalog ▸ sound.afterAll _) fun someSeen row member => ?_
    rw [handed.catalog] at member
    have defined : Run.definitionsOf parts.flatten ≠ [] := fun none =>
      someSeen ((handed.seen_eq_nil_iff rfl).mpr (List.filterMap_eq_nil_iff.mp none))
    obtain ⟨definition, inside, named⟩ := covered defined row member
    obtain ⟨guid, carried, same⟩ := Option.map_eq_some_iff.mp named
    rw [← same, Guid.mem_map_text_iff]
    exact (handed.mem_seen_iff rfl guid).mpr (kept.mem_ids_iff.mpr ⟨definition, inside, carried⟩)
  refine ⟨again, ?_, sameDisk, handed.catalog, rewritten, handed.removed, fun outcome => ?_⟩
  · rw [synchronize, read]
    simp only [visited, done, swept]
  · rw [Run.number_of_foldlM outcome sound done]
    cases outcome <;> exact Nat.zero_add _

end Synchronize

end RoutineScripts
