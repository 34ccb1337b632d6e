import RoutineScripts.Proofs.Sync.Footprint

/-!
# Dry runs

Handing over a file in a dry run does what the real run does, except for the disk
(`Run.handOver_onDisk`). The real run reads a folder after it has written the files of the folders
before it. When no file is collected in two folders (`SyncOptions.Apart`), none of these is read
again, and what is ahead of the run is as it was on the first disk (`Run.Ahead`). So a dry run is an
exact preview (`synchronize_dryRun`).
-/

namespace RoutineScripts

/-- No file is collected in two of the sub-folders. -/
def SyncOptions.Apart (options : SyncOptions) (disk : Disk) : Prop :=
  options.folders.Pairwise fun first second =>
    ∀ place ∈ disk.gathered options first, place ∉ disk.gathered options second

instance (options : SyncOptions) (disk : Disk) : Decidable (options.Apart disk) :=
  inferInstanceAs (Decidable (List.Pairwise _ _))

namespace Run

variable {σ : Type}

/-- The run with another disk. -/
def onDisk (disk : Disk) (run : Run σ) : Run σ :=
  { run with disk }

/-- The files of the folders that are still to be visited are apart, and as they were on the first
disk. -/
structure Ahead (options : SyncOptions) (disk : Disk) (run : Run σ) (folders : List Text) :
    Prop where
  shape : disk.SameShape run.disk
  unwritten : ∀ folder ∈ folders, ∀ place ∈ disk.gathered options folder,
    run.disk.fileAt place = disk.fileAt place
  apart : folders.Pairwise fun first second =>
    ∀ place ∈ disk.gathered options first, place ∉ disk.gathered options second

variable {options : SyncOptions} {pattern : Pattern} {disk : Disk} {run next : Run σ}
  {file : SourceFile} {folder : Text} {folders : List Text}

/-- A folder that is ahead holds the files it held at the start. -/
theorem Ahead.loadFolder (ahead : Ahead options disk run (folder :: folders))
    (read : Pattern.ofText options.pattern = .ok pattern) :
    run.disk.loadFolder options pattern folder = disk.loadFolder options pattern folder :=
  ahead.shape.loadFolder read (ahead.unwritten folder List.mem_cons_self)

/-- A preview places a marker as a run does, and leaves the disk alone. -/
theorem placeMarker_onDisk (disk : Disk) {current : Option Text} {id : Text}
    (written : WritesAll (placeMarker false run file current id)) :
    placeMarker true (run.onDisk disk) file current id =
      mapEnding (onDisk disk) (placeMarker false run file current id) := by
  unfold placeMarker at written ⊢
  simp only at written ⊢
  split
  case isTrue => rfl
  case isFalse unmarked =>
    rw [if_neg unmarked] at written
    split
    case isTrue => rfl
    case isFalse changes =>
      rw [if_neg changes, if_neg Bool.false_ne_true] at written
      rw [if_pos trivial, if_neg Bool.false_ne_true]
      cases saved : file.save (Marker.ensure file.content id) run.disk with
      | ok next => rfl
      | error failure =>
          obtain ⟨error, left⟩ := failure
          obtain ⟨fault, rfl, _⟩ := SourceFile.write_of_save_error saved
          rw [saved] at written
          exact absurd rfl (written _ _)

variable [Catalog σ]

/-- Visiting a folder writes its own files only. -/
theorem Ahead.next_of_visitFolder (ahead : Ahead options disk run (folder :: folders))
    (read : Pattern.ofText options.pattern = .ok pattern)
    (visited : run.visitFolder options pattern folder = .ok next) :
    Ahead options disk next folders := by
  have loadedHere := loadFolder_of_visitFolder visited
  have loaded := (ahead.loadFolder read).symm.trans loadedHere
  have touches := touches_of_foldlM (foldlM_of_visitFolder visited) fun file member =>
    (exists_place?_of_load (load_of_mem_loadFolder loadedHere file member)).imp fun _ => And.left
  obtain ⟨first, others⟩ := List.pairwise_cons.mp ahead.apart
  refine ⟨ahead.shape.trans touches.shape, fun later member place inside => ?_, others⟩
  rw [← ahead.unwritten later (List.mem_cons_of_mem _ member) place inside]
  -- A file that changed is gathered in this folder, and then in none of the later ones.
  refine Decidable.byContradiction fun differs => ?_
  obtain ⟨file, listed, _, found⟩ := touches.changed place differs
  rw [← ahead.shape.place?] at found
  exact first later member place
    (Disk.mem_gathered read (Disk.mem_collected_of_loadFolder loaded file listed) found) inside

/-- The files that are scanned are those of the first disk. -/
theorem Ahead.load_of_mem_filesOf (ahead : Ahead options disk run folders)
    (read : Pattern.ofText options.pattern = .ok pattern)
    (member : file ∈ run.filesOf options pattern folders) :
    SourceFile.load disk file.path = .ok file := by
  induction folders generalizing run with
  | nil => cases member
  | cons folder folders ih =>
      rw [filesOf, List.mem_append] at member
      rcases member with inside | later
      · cases loaded : run.disk.loadFolder options pattern folder with
        | error error =>
            rw [(visitFolder_of_loadFolder_error loaded).2] at inside
            cases inside
        | ok files =>
            rw [filesIn_of_loadFolder loaded] at inside
            exact load_of_mem_loadFolder ((ahead.loadFolder read).symm.trans loaded) file inside
      · cases visited : run.visitFolder options pattern folder with
        | error halt =>
            rw [visited] at later
            cases later
        | ok next =>
            rw [visited] at later
            exact ih (ahead.next_of_visitFolder read visited) later

/-- **One file.** A dry run does the same, on the disk as it is, unless the file cannot be
written. -/
theorem handOver_onDisk (disk : Disk) (written : WritesAll (handOver false run file)) :
    handOver true (run.onDisk disk) file = mapEnding (onDisk disk) (handOver false run file) := by
  have catalogs : (run.onDisk disk).catalog = run.catalog := rfl
  unfold handOver at written ⊢
  rw [catalogs]
  cases defined : Definition.ofText? file.content with
  | none => rfl
  | some definition =>
      rw [defined] at written
      simp only at written ⊢
      rcases answer : Catalog.upsert run.catalog definition with ⟨error | upsert, catalog⟩
      · rfl
      · rw [answer] at written
        exact placeMarker_onDisk disk written

/-- A preview hands files over as a run does, and leaves the disk alone. -/
theorem foldlM_onDisk (disk : Disk) {files : List SourceFile}
    (written : WritesAll (files.foldlM (handOver false) run)) :
    files.foldlM (handOver true) (run.onDisk disk) =
      mapEnding (onDisk disk) (files.foldlM (handOver false) run) :=
  foldlM_mapEnding_of_spared _ (fun _ _ => True)
    (fun _ _ _ _ spared =>
      ⟨handOver_onDisk disk (spared_iff_writesAll.mp spared), fun _ _ => trivial⟩)
    trivial (spared_iff_writesAll.mpr written)

/-- A preview sweeps as a run does. -/
theorem sweepAll_onDisk (disk : Disk) (run : Run σ) :
    (run.onDisk disk).sweepAll = mapEnding (onDisk disk) run.sweepAll := by
  have one (run : Run σ) (id : Text) :
      (run.onDisk disk).sweep id = mapEnding (onDisk disk) (run.sweep id) := by
    have orphan : (run.onDisk disk).isOrphan id = run.isOrphan id := rfl
    have catalogs : (run.onDisk disk).catalog = run.catalog := rfl
    rw [sweep, sweep, orphan, catalogs]
    split
    case isFalse => rfl
    case isTrue => rcases Catalog.remove run.catalog id with ⟨error | done, catalog⟩ <;> rfl
  have seen : (run.onDisk disk).seen = run.seen := rfl
  rw [sweepAll, sweepAll, seen]
  split
  case isTrue => rfl
  case isFalse => exact foldlM_mapEnding one run _

/-- **One folder.** A dry run reads the same files as the real run. -/
theorem visitFolder_onDisk
    (ahead : Ahead { options with dryRun := false } disk run (folder :: folders))
    (read : Pattern.ofText options.pattern = .ok pattern)
    (written : WritesAll (run.visitFolder { options with dryRun := false } pattern folder)) :
    (run.onDisk disk).visitFolder { options with dryRun := true } pattern folder =
      mapEnding (onDisk disk)
        (run.visitFolder { options with dryRun := false } pattern folder) := by
  have same := ahead.loadFolder read
  have untouched :
      (run.onDisk disk).disk.loadFolder { options with dryRun := true } pattern folder =
        disk.loadFolder { options with dryRun := false } pattern folder := rfl
  rw [visitFolder_eq, same] at written
  rw [visitFolder_eq, visitFolder_eq, untouched, same]
  cases loaded : disk.loadFolder { options with dryRun := false } pattern folder with
  | error error => rfl
  | ok files =>
      rw [loaded] at written
      exact foldlM_onDisk disk written

/-- A preview visits folders as a run does, and leaves the disk alone. -/
theorem visitFolders_onDisk (ahead : Ahead { options with dryRun := false } disk run folders)
    (read : Pattern.ofText options.pattern = .ok pattern)
    (written : WritesAll
      (folders.foldlM (visitFolder { options with dryRun := false } pattern) run)) :
    folders.foldlM (visitFolder { options with dryRun := true } pattern) (run.onDisk disk) =
      mapEnding (onDisk disk)
        (folders.foldlM (visitFolder { options with dryRun := false } pattern) run) :=
  foldlM_mapEnding_of_spared _ (Ahead { options with dryRun := false } disk)
    (fun _ _ _ ahead spared =>
      ⟨visitFolder_onDisk ahead read (spared_iff_writesAll.mp spared),
        fun _ visited => ahead.next_of_visitFolder read visited⟩)
    ahead (spared_iff_writesAll.mpr written)

end Run

section Synchronize

variable {σ : Type} {options : SyncOptions} {disk : Disk}

/-- When folders lie apart, all of them are ahead at the start. -/
theorem SyncOptions.Apart.ahead (apart : options.Apart disk) (catalog : σ) :
    Run.Ahead { options with dryRun := false } disk ⟨disk, catalog, .empty, []⟩ options.folders :=
  ⟨.refl disk, fun _ _ _ _ => rfl, apart⟩

variable [Catalog σ]

/-- A dry run ends as the real run does, on the disk that it started with. -/
theorem synchronize_onDisk (apart : options.Apart disk) (catalog : σ)
    (written : Run.WritesAll (synchronize { options with dryRun := false } disk catalog)) :
    synchronize { options with dryRun := true } disk catalog =
      Run.mapEnding (Run.onDisk disk)
        (synchronize { options with dryRun := false } disk catalog) := by
  unfold synchronize at written ⊢
  simp only at written ⊢
  cases read : Pattern.ofText options.pattern with
  | error error => rfl
  | ok pattern =>
      simp only [read] at written
      have folders : Run.WritesAll (options.folders.foldlM
          (Run.visitFolder { options with dryRun := false } pattern)
          (⟨disk, catalog, .empty, []⟩ : Run σ)) := by
        cases result : options.folders.foldlM
            (Run.visitFolder { options with dryRun := false } pattern)
            (⟨disk, catalog, .empty, []⟩ : Run σ) with
        | error halt => exact fun path fault => by simpa only [result] using written path fault
        | ok visited => exact fun _ _ impossible => nomatch impossible
      have same := Run.visitFolders_onDisk (apart.ahead catalog) read folders
      have start : Run.onDisk disk (⟨disk, catalog, .empty, []⟩ : Run σ) =
          ⟨disk, catalog, .empty, []⟩ := rfl
      rw [start] at same
      simp only [same]
      cases options.folders.foldlM (Run.visitFolder { options with dryRun := false } pattern)
          (⟨disk, catalog, .empty, []⟩ : Run σ) with
      | error halt => rfl
      | ok visited => exact visited.sweepAll_onDisk disk

/-- The files that a real run scans are those of the first disk. -/
theorem SyncOptions.Apart.load_of_mem_scannedFiles (apart : options.Apart disk) {catalog : σ}
    {file : SourceFile}
    (member : file ∈ scannedFiles { options with dryRun := false } disk catalog) :
    SourceFile.load disk file.path = .ok file := by
  unfold scannedFiles at member
  split at member
  case h_1 => cases member
  case h_2 pattern read => exact (apart.ahead catalog).load_of_mem_filesOf read member

/-- **Dry runs are exact previews.** Over any files and any catalog, as long as no file is collected
in two of the sub-folders and the real run does not end with an error in writing a file, a dry run
and a real run end well or with the same error, with equal reports and in equal states of the
catalog. The dry run leaves the disk as it was. The real run makes and moves no file, and changes
only files whose paths it reports as rewritten; each of these holds its text with the marker that
the catalog answered for it, in the encoding it was read in. -/
theorem synchronize_dryRun (apart : options.Apart disk) (catalog : σ)
    (written : Run.WritesAll (synchronize { options with dryRun := false } disk catalog)) :
    let dry := synchronize { options with dryRun := true } disk catalog
    let real := synchronize { options with dryRun := false } disk catalog
    Run.failure? dry = Run.failure? real ∧
    (Run.ending dry).report = (Run.ending real).report ∧
    (Run.ending dry).catalog = (Run.ending real).catalog ∧
    (Run.ending dry).disk = disk ∧
    disk.SameShape (Run.ending real).disk ∧
    (∀ place, (Run.ending real).disk.fileAt place ≠ disk.fileAt place →
      ∃ path ∈ (Run.ending real).report.rewritten, disk.place? path = some place) ∧
    ∀ path ∈ (Run.ending real).report.rewritten, ∃ file upsert place,
      (file, upsert) ∈
        Run.upserts catalog (scannedFiles { options with dryRun := false } disk catalog) ∧
      SourceFile.load disk file.path = .ok file ∧
      disk.place? path = some place ∧ disk.place? file.path = some place ∧
      (Run.ending real).disk.fileAt place =
        some (file.encoding.encode (Marker.ensure file.content upsert.id)) := by
  intro dry real
  have same : dry = Run.mapEnding (Run.onDisk disk) real := synchronize_onDisk apart catalog written
  obtain ⟨lastDisk, lastRewritten⟩ :=
    ending_synchronize_frame { options with dryRun := false } disk catalog
  have handed : Run.WritesAll ((scannedFiles { options with dryRun := false } disk catalog).foldlM
      (Run.handOver false) ⟨disk, catalog, .empty, []⟩) := by
    intro path fault fails
    obtain ⟨halt, stopped, error⟩ := Run.exists_of_failure? fails
    have whole : synchronize { options with dryRun := false } disk catalog = .error halt :=
      synchronize_of_foldlM_error stopped
    exact written path fault (by rw [whole, ← error]; rfl)
  have placed : ∀ file ∈ scannedFiles { options with dryRun := false } disk catalog,
      ∃ place, disk.place? file.path = some place ∧ disk.failures.reading place = none :=
    fun _ member => exists_place?_of_mem_scannedFiles member
  have touches := Run.touches_ending handed fun file member =>
    (placed file member).imp fun _ => And.left
  have rewrote := Run.rewrote_ending handed rfl placed
  rw [same, Run.failure?_mapEnding, Run.ending_mapEnding]
  refine ⟨rfl, rfl, rfl, rfl, ?_, ?_, ?_⟩
  · rw [lastDisk]
    exact touches.shape
  · intro place differs
    rw [lastDisk] at differs
    obtain ⟨file, _, listed, found⟩ := touches.changed place differs
    exact ⟨file.path, lastRewritten ▸ listed, found⟩
  · intro path member
    rw [lastRewritten] at member
    obtain ⟨file, upsert, place, listed, _, found, leads, _, content⟩ := rewrote path member
    rw [← touches.shape.place?] at found leads
    exact ⟨file, upsert, place, listed,
      apart.load_of_mem_scannedFiles (Run.mem_of_mem_upserts listed), found, leads,
      lastDisk ▸ content⟩

/-- Two folders with a script each, one of them in Windows-1252, and an entry that no script
carries. -/
theorem synchronize_dryRun_folders :
    let options : SyncOptions := .standard
    let disk := (Disk.empty.putFile
      ["work".toList, "db-lib".toList, "functions".toList, "f.sql".toList]
      (Utf8.encode "CREATE FUNCTION f() AS $$\nSELECT 1;\n$$ LANGUAGE sql;".toList)).putFile
      ["work".toList, "db-lib".toList, "procedures".toList, "g.sql".toList]
      (Windows1252.encode "CREATE PROCEDURE g() AS $$\n-- \u00e9\n$$ LANGUAGE sql;".toList)
    let gone := Definition.ofScript
      ⟨[], ⟨.procedure, []⟩, ['p'], [], [], .dollar [] [], [], none, []⟩
    let catalog := ((MemoryCatalog.empty Guid.numbered).upsert gone).2
    let dry := synchronize { options with dryRun := true } disk catalog
    let real := synchronize { options with dryRun := false } disk catalog
    options.Apart disk ∧ Run.failure? real = none ∧
      (Run.ending real).report.rewritten =
        ["db-lib/functions/f.sql".toList, "db-lib/procedures/g.sql".toList] ∧
      (Run.ending real).report.removed = [(Guid.numbered 0).braced] ∧
      Run.failure? dry = none ∧ (Run.ending dry).report = (Run.ending real).report ∧
      (Run.ending dry).disk = disk ∧
      ∀ path ∈ (Run.ending real).report.rewritten, ∃ file place, ∃ upsert : Upsert,
        SourceFile.load disk file.path = .ok file ∧ disk.place? path = some place ∧
        (Run.ending real).disk.fileAt place =
          some (file.encoding.encode (Marker.ensure file.content upsert.id)) := by
  intro options disk gone catalog dry real
  have apart : options.Apart disk := by decide +kernel
  have ends : (Run.failure? real, (Run.ending real).report.rewritten,
      (Run.ending real).report.removed) =
      (none, ["db-lib/functions/f.sql".toList, "db-lib/procedures/g.sql".toList],
        [(Guid.numbered 0).braced]) := by decide +kernel
  obtain ⟨well, ends⟩ := Prod.mk.inj ends
  obtain ⟨rewritten, removed⟩ := Prod.mk.inj ends
  have written : Run.WritesAll real := by
    intro path fault fails
    rw [well] at fails
    cases fails
  obtain ⟨failure, report, _, same, _, _, contents⟩ := synchronize_dryRun apart catalog written
  refine ⟨apart, well, rewritten, removed, failure.trans well, report, same,
    fun path member => ?_⟩
  obtain ⟨file, upsert, place, _, loaded, found, _, content⟩ := contents path member
  exact ⟨file, place, upsert, loaded, found, content⟩

end Synchronize

end RoutineScripts
