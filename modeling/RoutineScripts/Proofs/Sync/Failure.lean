import RoutineScripts.Proofs.Sync.Footprint

/-!
# Runs that fail

Handing over definitions takes no entry out of a catalog in memory
(`MemoryCatalog.mem_ids_afterAll`), and the sweep of such a catalog does not fail
(`Run.exists_sweepAll`). So a run that fails has taken nothing out. All files of a folder are read
before the first of them is handed over. So an error in reading leaves the catalog and the files as
the folders before led to (`synchronize_error`).
-/

namespace RoutineScripts

/-- A traversal that fails, fails at an element. -/
theorem exists_of_mapM_eq_error {ε α β : Type} {action : α → Except ε β} {list : List α} {error : ε}
    (failed : list.mapM action = .error error) : ∃ element, action element = .error error := by
  induction list with
  | nil => cases failed
  | cons first rest ih =>
      rw [List.mapM_cons] at failed
      cases one : action first with
      | error other =>
          rw [one] at failed
          cases failed
          exact ⟨first, one⟩
      | ok result =>
          rw [one] at failed
          cases others : rest.mapM action with
          | error other =>
              rw [others] at failed
              cases failed
              exact ih others
          | ok results =>
              rw [others] at failed
              cases failed

/-- Identifiers stay when definitions are handed over. -/
theorem MemoryCatalog.mem_ids_afterAll {catalog : MemoryCatalog} (sound : Sound catalog.table)
    (definitions : List Definition) {id : Text} (member : id ∈ catalog.ids) :
    id ∈ (catalog.afterAll definitions).ids := by
  rw [ids_eq] at member ⊢
  obtain ⟨⟨key, entry⟩, inside, rfl⟩ := List.mem_map.mp member
  obtain ⟨guid, keyed, stored⟩ := sound.inStep _ inside
  simp only at keyed stored
  subst keyed
  by_cases answered : guid.braced ∈ (catalog.answers definitions).map (·.2.id)
  · obtain ⟨definition, last⟩ := exists_lastAnswer answered
    exact List.mem_map.mpr ⟨(guid.text, Entry.ofDefinition guid.braced definition),
      (mem_afterAll_iff sound definitions).mpr (Or.inl ⟨definition, last, rfl⟩), stored.symm⟩
  · exact List.mem_map.mpr ⟨(guid.text, entry), (mem_afterAll_iff sound definitions).mpr (Or.inr
      ⟨inside, fun answer listed same => answered (List.mem_map.mpr ⟨answer, listed, same⟩)⟩), rfl⟩

/-- An error in loading a folder is one of walking it or of reading a file. -/
theorem Disk.loadFolder_error_cases {options : SyncOptions} {pattern : Pattern} {disk : Disk}
    {folder : Text} {error : SyncError}
    (failed : disk.loadFolder options pattern folder = .error error) :
    (∃ path fault, error = .unreadable path fault) ∨
      ∃ path cause, error = .untraversable path cause := by
  unfold loadFolder at failed
  simp only at failed
  split at failed
  case isFalse => cases failed
  case isTrue =>
    split at failed
    case h_1 cause _ =>
      cases failed
      exact Or.inr ⟨_, cause, rfl⟩
    case h_2 paths _ =>
      obtain ⟨path, unread⟩ := exists_of_mapM_eq_error failed
      rw [SourceFile.load] at unread
      split at unread
      case h_1 fault _ =>
        cases unread
        exact Or.inl ⟨path, fault, rfl⟩
      case h_2 => cases unread

namespace Run

variable {dryRun : Bool} {run next : Run MemoryCatalog} {file : SourceFile}
  {halt : Halt MemoryCatalog}

/-- A catalog in memory takes every definition, so that only a file that cannot be written stops a
run. -/
theorem Stops.exists_unwritable (stops : Stops dryRun run file halt) :
    ∃ path fault, halt.error = .unwritable path fault := by
  cases stops with
  | refused defined answer => cases answer
  | @unwritable _ _ _ fault => exact ⟨file.path, fault, rfl⟩

/-- An entry that cannot be taken out is not there. -/
theorem find?_of_sweep_error {guid : Guid} (failed : run.sweep guid.braced = .error halt) :
    run.catalog.find? guid.text = none := by
  rw [sweep] at failed
  split at failed
  case isFalse => cases failed
  case isTrue =>
    have removal : (Catalog.remove run.catalog guid.braced : Except SyncError Unit × _) =
        run.catalog.remove guid.braced := rfl
    rw [removal, MemoryCatalog.remove, MemoryCatalog.key?_braced] at failed
    cases found : run.catalog.find? guid.text with
    | none => rfl
    | some entry =>
        simp only [found, Option.isSome_some, if_true] at failed
        cases failed

/-- **The sweep does not fail.** Each entry is taken out at most once. -/
theorem exists_sweepAll (sound : MemoryCatalog.Sound run.catalog.table) :
    ∃ next, run.sweepAll = .ok next := by
  cases result : run.sweepAll with
  | ok next => exact ⟨next, rfl⟩
  | error halt =>
      rw [sweepAll] at result
      split at result
      case isTrue => cases result
      case isFalse =>
        obtain ⟨guids, keys, stored⟩ := sound.exists_guids
        have listed : (Catalog.ids run.catalog : List Text) = guids.map Guid.braced :=
          run.catalog.ids_eq.trans stored
        rw [listed] at result
        obtain ⟨before, id, after, middle, split, swept, failed⟩ :=
          exists_of_foldlM_eq_error result
        obtain ⟨first, others, rfl, rfl, rest⟩ := List.map_eq_append_iff.mp split
        obtain ⟨guid, last, rfl, rfl, _⟩ := List.map_eq_cons_iff.mp rest
        have missing := find?_of_sweep_error failed
        obtain ⟨table, _⟩ := foldlM_sweep swept
        -- The keys before it are others, so it has not been taken out with them.
        have apart : guid.text ∉ first.map Guid.text := by
          have increasing : ((first ++ guid :: last).map Guid.text).Pairwise
              fun one other => one.precedes other = true := by
            rw [← keys]
            exact List.pairwise_map.mpr sound.ordered
          rw [List.map_append, List.map_cons] at increasing
          intro taken
          have before := (List.pairwise_append.mp increasing).2.2 _ taken _ List.mem_cons_self
          rw [Text.precedes_irrefl] at before
          cases before
        have known : guid.text ∈ run.catalog.table.map Prod.fst := by
          rw [keys]
          exact List.mem_map_of_mem (List.mem_append_right _ List.mem_cons_self)
        obtain ⟨⟨key, entry⟩, inside, rfl⟩ := List.mem_map.mp known
        have left : (guid.text, entry) ∈ middle.catalog.table := by
          rw [table, List.mem_filter]
          exact ⟨inside, decide_eq_true (Or.inr apart)⟩
        have stillOrdered : MemoryCatalog.Ordered middle.catalog.table := by
          rw [table]
          exact sound.ordered.filter _
        rw [MemoryCatalog.find?_eq_some stillOrdered left] at missing
        cases missing

/-- With a sound catalog, the sweep after files were handed over ends well. -/
theorem exists_sweepAll_of_foldlM {files : List SourceFile}
    (sound : MemoryCatalog.Sound run.catalog.table)
    (handed : files.foldlM (handOver dryRun) run = .ok next) :
    ∃ last, next.sweepAll = .ok last := by
  apply exists_sweepAll
  rw [(handed_of_foldlM sound handed).catalog]
  exact sound.afterAll _

end Run

section Synchronize

variable {options : SyncOptions} {disk : Disk} {catalog : MemoryCatalog}
  {halt : Halt MemoryCatalog}

/-- A run that fails has handed over the first of the definitions that it scans, and swept
nothing. -/
theorem exists_handed_of_synchronize_error (sound : MemoryCatalog.Sound catalog.table)
    (fails : synchronize options disk catalog = .error halt) :
    ∃ handed rest, Run.definitionsOf (scannedFiles options disk catalog) = handed ++ rest ∧
      halt.run.catalog = catalog.afterAll handed ∧ halt.run.report.removed = [] := by
  rcases synchronize_cases options disk catalog with ⟨error, stopped⟩ | ⟨visited, scanned, ends⟩
  · rw [fails] at stopped
    cases stopped
    obtain ⟨handed, rest, split, advanced⟩ := Run.exists_advanced options.dryRun
      ⟨disk, catalog, .empty, []⟩ (scannedFiles options disk catalog)
    exact ⟨handed, rest, split, advanced.catalog.trans (catalog.catalogAfterAll_eq handed),
      advanced.removed⟩
  · obtain ⟨last, swept⟩ := Run.exists_sweepAll_of_foldlM sound scanned
    rw [ends, swept] at fails
    cases fails

/-- **A failing run never deletes.** When a run over a catalog in memory fails, every identifier
that was in the catalog is still in it, and none was removed. If the pattern is none, the catalog
and the disk are as they were. If a file cannot be read or a folder cannot be walked, the run stops
in the state that the folders before lead to: the catalog has been handed exactly their definitions,
in order, and no file was written that was not gathered in one of them. -/
theorem synchronize_error (reachable : catalog.Reachable)
    (fails : synchronize options disk catalog = .error halt) :
    (∀ id ∈ catalog.ids, id ∈ halt.run.catalog.ids) ∧ halt.run.report.removed = [] ∧
    (∀ text error, halt.error = .invalidPattern text error →
      halt.run.catalog = catalog ∧ halt.run.disk = disk) ∧
    ((∃ path fault, halt.error = .unreadable path fault) ∨
        (∃ path cause, halt.error = .untraversable path cause) →
      ∃ pattern before folder after,
        Pattern.ofText options.pattern = .ok pattern ∧
        options.folders = before ++ folder :: after ∧
        before.foldlM (Run.visitFolder options pattern) ⟨disk, catalog, .empty, []⟩ =
          .ok halt.run ∧
        halt.run.disk.loadFolder options pattern folder = .error halt.error ∧
        halt.run.catalog = catalog.afterAll (Run.definitionsOf
          (Run.filesOf options pattern ⟨disk, catalog, .empty, []⟩ before)) ∧
        ∀ place, (∀ earlier ∈ before, place ∉ disk.gathered options earlier) →
          halt.run.disk.fileAt place = disk.fileAt place) := by
  have sound := reachable.sound
  obtain ⟨handed, _, _, same, removed⟩ := exists_handed_of_synchronize_error sound fails
  refine ⟨fun id member => ?_, removed, ?_⟩
  · rw [same]
    exact MemoryCatalog.mem_ids_afterAll sound handed member
  rcases synchronize_error_cases fails with ⟨error, rfl⟩ | ⟨pattern, read, stopped⟩
  · refine ⟨fun _ _ _ => ⟨rfl, rfl⟩, fun either => ?_⟩
    rcases either with ⟨_, _, kind⟩ | ⟨_, _, kind⟩ <;> cases kind
  have visiting : options.folders.foldlM (Run.visitFolder options pattern)
      ⟨disk, catalog, .empty, []⟩ = .error halt := by
    rcases stopped with visiting | ⟨visited, folders, swept⟩
    · exact visiting
    · obtain ⟨last, ends⟩ := Run.exists_sweepAll_of_foldlM sound
        (Run.foldlM_of_visitFolders folders)
      rw [ends] at swept
      cases swept
  obtain ⟨before, folder, after, middle, split, visited, cause⟩ :=
    Run.exists_of_visitFolders_error visiting
  rcases cause with ⟨unread, rfl⟩ | ⟨_, _, _, _, _, _, stops⟩
  · refine ⟨fun text error isPattern => ?_, fun _ => ⟨pattern, before, folder, after, read,
      split, visited, unread, ?_, fun place elsewhere => ?_⟩⟩
    · have kinds := Disk.loadFolder_error_cases unread
      rw [isPattern] at kinds
      rcases kinds with ⟨_, _, kind⟩ | ⟨_, _, kind⟩ <;> cases kind
    · exact (Run.handed_of_foldlM sound (Run.foldlM_of_visitFolders visited)).catalog
    · exact Run.fileAt_of_visitFolders read visited elsewhere
  · obtain ⟨path, fault, isWrite⟩ := stops.exists_unwritable
    rw [isWrite]
    refine ⟨fun _ _ kind => ?_, fun either => ?_⟩
    · cases kind
    · rcases either with ⟨_, _, kind⟩ | ⟨_, _, kind⟩ <;> cases kind

/-- Two folders with a script each, where the system refuses one operation: reading a file of the
second folder, listing a folder in it, or writing the file of the first one to its end. The first
two stop the run when the script of the first folder has been marked and nothing else. The third one
leaves the first bytes of that script. -/
theorem synchronize_error_refused :
    let functions := ["work".toList, "db-lib".toList, "functions".toList]
    let procedures := ["work".toList, "db-lib".toList, "procedures".toList]
    let files := ((Disk.empty.putFile (functions ++ ["f.sql".toList])
      (Utf8.encode "CREATE FUNCTION f() AS $$1$$".toList)).putFile
      (procedures ++ ["g.sql".toList])
      (Utf8.encode "CREATE PROCEDURE g() AS $$1$$".toList)).putFile
      (procedures ++ ["old".toList, "h.sql".toList]) []
    let noReading (place : List Text) : Option Fault :=
      if place = procedures ++ ["old".toList, "h.sql".toList] then some .permissionDenied else none
    let noListing (place : List Text) : Option Fault :=
      if place = procedures ++ ["old".toList] then some .permissionDenied else none
    let noSpace : Fault := .system "No space left on device".toList 28
    let halfWriting (place : List Text) : Option WriteFailure :=
      if place = functions ++ ["f.sql".toList] then some ⟨noSpace, some 6⟩ else none
    let unreadable : Disk := { files with failures := { Failures.none with reading := noReading } }
    let closed : Disk := { files with failures := { Failures.none with listing := noListing } }
    let full : Disk := { files with failures := { Failures.none with writing := halfWriting } }
    let gone := Definition.ofScript
      ⟨[], ⟨.procedure, []⟩, ['p'], [], [], .dollar [] [], [], none, []⟩
    let catalog := ((MemoryCatalog.empty Guid.numbered).upsert gone).2
    let stopsBefore (disk : Disk) (error : SyncError) : Prop :=
      ∃ halt, synchronize .standard disk catalog = .error halt ∧ halt.error = error ∧
        halt.run.report.rewritten = ["db-lib/functions/f.sql".toList] ∧
        (Guid.numbered 0).braced ∈ halt.run.catalog.ids ∧ halt.run.report.removed = [] ∧
        ∃ pattern before folder after,
          SyncOptions.standard.folders = before ++ folder :: after ∧
          halt.run.catalog = catalog.afterAll (Run.definitionsOf
            (Run.filesOf .standard pattern ⟨disk, catalog, .empty, []⟩ before)) ∧
          ∀ place, (∀ earlier ∈ before, place ∉ disk.gathered .standard earlier) →
            halt.run.disk.fileAt place = disk.fileAt place
    stopsBefore unreadable
        (.unreadable "db-lib/procedures/old/h.sql".toList .permissionDenied) ∧
      stopsBefore closed
        (.untraversable "db-lib/procedures".toList
          ⟨"db-lib/procedures/old".toList, .permissionDenied⟩) ∧
      ∃ halt, synchronize .standard full catalog = .error halt ∧
        halt.error = .unwritable "db-lib/functions/f.sql".toList noSpace ∧
        halt.run.disk.fileAt (functions ++ ["f.sql".toList]) =
          some (Utf8.encode "CREATE".toList) ∧
        (Guid.numbered 0).braced ∈ halt.run.catalog.ids ∧ halt.run.report.removed = [] := by
  intro functions procedures files noReading noListing noSpace halfWriting unreadable closed full
    gone catalog stopsBefore
  have reachable : catalog.Reachable := .upsert (.empty Guid.numbered) gone
  have known : (Guid.numbered 0).braced ∈ catalog.ids := by decide +kernel
  have stops (disk : Disk) (error : SyncError)
      (ends : Run.failure? (synchronize .standard disk catalog) = some error)
      (rewritten : (Run.ending (synchronize .standard disk catalog)).report.rewritten =
        ["db-lib/functions/f.sql".toList])
      (reading : (∃ path fault, error = .unreadable path fault) ∨
        ∃ path cause, error = .untraversable path cause) : stopsBefore disk error := by
    obtain ⟨halt, fails, rfl⟩ := Run.exists_of_failure? ends
    rw [fails] at rewritten
    obtain ⟨ids, removed, _, before⟩ := synchronize_error reachable fails
    obtain ⟨pattern, earlier, folder, after, _, split, _, _, same, files⟩ := before reading
    exact ⟨halt, fails, rfl, rewritten, ids _ known, removed, pattern, earlier, folder, after,
      split, same, files⟩
  refine ⟨stops _ _ (by decide +kernel) (by decide +kernel) (Or.inl ⟨_, _, rfl⟩),
    stops _ _ (by decide +kernel) (by decide +kernel) (Or.inr ⟨_, _, rfl⟩), ?_⟩
  have ends : Run.failure? (synchronize .standard full catalog) =
      some (.unwritable "db-lib/functions/f.sql".toList noSpace) := by decide +kernel
  have left : (Run.ending (synchronize .standard full catalog)).disk.fileAt
      (functions ++ ["f.sql".toList]) = some (Utf8.encode "CREATE".toList) := by decide +kernel
  obtain ⟨halt, fails, error⟩ := Run.exists_of_failure? ends
  rw [fails] at left
  obtain ⟨ids, removed, _⟩ := synchronize_error reachable fails
  exact ⟨halt, fails, error, left, ids _ known, removed⟩

end Synchronize

end RoutineScripts
