import RoutineScripts.Proofs.Catalog.Memory
import RoutineScripts.Proofs.Sync.Step

/-!
# What a run leaves in the catalog

A run hands over the files it scans one after the other, folder by folder (`scannedFiles`), and then
sweeps. One step of it either skips a file or hands its definition over (`Run.handOver_cases`), so
the catalog after all files is the catalog after all their definitions (`Run.Handed`). The sweep
takes out exactly the entries that were not answered. Together they say what is in the catalog after
a run that ends well, and what was removed from it (`synchronize_catalog`).
-/

namespace RoutineScripts

/-- A computation of two steps ends when both do. -/
theorem exists_of_bind_eq_ok {ε α β : Type} {first : Except ε α} {next : α → Except ε β}
    {result : β} (done : first >>= next = .ok result) :
    ∃ value, first = .ok value ∧ next value = .ok result := by
  cases first with
  | error error => cases done
  | ok value => exact ⟨value, rfl, done⟩

namespace Run

section Scan

variable {σ : Type} [Catalog σ]

/-- The files that are read when a sub-folder is visited. -/
def filesIn (options : SyncOptions) (pattern : Pattern) (run : Run σ) (folder : Text) :
    List SourceFile :=
  let path := Path.join options.root folder
  if run.disk.isFolder path then
    match run.disk.collect path pattern with
    | .error _ => []
    | .ok paths =>
        match paths.mapM (SourceFile.load run.disk) with
        | .error _ => []
        | .ok files => files
  else
    []

/-- The files that are read when sub-folders are visited, in order. Each folder is read in the state
that the folders before it lead to. -/
def filesOf (options : SyncOptions) (pattern : Pattern) : Run σ → List Text → List SourceFile
  | _, [] => []
  | run, folder :: others =>
      run.filesIn options pattern folder ++
        match run.visitFolder options pattern folder with
        | .error _ => []
        | .ok next => next.filesOf options pattern others

/-- A folder that was visited had its files handed over. -/
theorem foldlM_of_visitFolder {options : SyncOptions} {pattern : Pattern} {run next : Run σ}
    {folder : Text} (visited : run.visitFolder options pattern folder = .ok next) :
    (run.filesIn options pattern folder).foldlM (handOver options.dryRun) run = .ok next := by
  unfold visitFolder at visited
  unfold filesIn
  simp only at visited ⊢
  split at visited
  case isTrue there =>
    rw [if_pos there]
    split at visited
    case h_1 => cases visited
    case h_2 paths collected =>
      split at visited
      case h_1 => cases visited
      case h_2 files loaded => simpa only [collected, loaded] using visited
  case isFalse missing =>
    rw [if_neg missing]
    exact visited

/-- Visiting folders is handing over their files, one after the other. -/
theorem foldlM_of_visitFolders {options : SyncOptions} {pattern : Pattern} {folders : List Text}
    {run last : Run σ}
    (visited : folders.foldlM (visitFolder options pattern) run = .ok last) :
    (run.filesOf options pattern folders).foldlM (handOver options.dryRun) run = .ok last := by
  induction folders generalizing run with
  | nil => exact visited
  | cons folder others ih =>
      rw [List.foldlM_cons] at visited
      obtain ⟨next, first, later⟩ := exists_of_bind_eq_ok visited
      rw [filesOf, first, List.foldlM_append, foldlM_of_visitFolder first]
      exact ih later

end Scan

end Run

/-- The files that a run scans, in order. -/
def scannedFiles {σ : Type} [Catalog σ] (options : SyncOptions) (disk : Disk) (catalog : σ) :
    List SourceFile :=
  match Pattern.ofText options.pattern with
  | .error _ => []
  | .ok pattern =>
      Run.filesOf options pattern (⟨disk, catalog, .empty, []⟩ : Run σ) options.folders

section Synchronize

variable {σ : Type} [Catalog σ] {options : SyncOptions} {disk : Disk} {catalog : σ} {run : Run σ}

/-- The parts of a run that ends well. -/
theorem exists_folders_of_synchronize (done : synchronize options disk catalog = .ok run) :
    ∃ pattern visited, Pattern.ofText options.pattern = .ok pattern ∧
      options.folders.foldlM (Run.visitFolder options pattern) ⟨disk, catalog, .empty, []⟩ =
        .ok visited ∧
      visited.sweepAll = .ok run ∧
      scannedFiles options disk catalog =
        Run.filesOf options pattern ⟨disk, catalog, .empty, []⟩ options.folders := by
  unfold synchronize at done
  unfold scannedFiles
  cases read : Pattern.ofText options.pattern with
  | error error =>
      simp only [read] at done
      cases done
  | ok pattern =>
      simp only [read] at done
      split at done
      case h_1 => cases done
      case h_2 visited folders => exact ⟨pattern, visited, rfl, folders, done, rfl⟩

/-- A run that ends well hands over the files it scans and then sweeps. -/
theorem exists_visited_of_synchronize (done : synchronize options disk catalog = .ok run) :
    ∃ visited : Run σ,
      (scannedFiles options disk catalog).foldlM (Run.handOver options.dryRun)
        ⟨disk, catalog, .empty, []⟩ = .ok visited ∧ visited.sweepAll = .ok run := by
  obtain ⟨pattern, visited, _, folders, swept, scanned⟩ := exists_folders_of_synchronize done
  rw [scanned]
  exact ⟨visited, Run.foldlM_of_visitFolders folders, swept⟩

/-- Sweeping an identifier writes no file. -/
theorem Run.sweep_frame {next : Run σ} {id : Text} (swept : run.sweep id = .ok next) :
    next.disk = run.disk ∧ next.report.rewritten = run.report.rewritten := by
  rw [sweep] at swept
  split at swept
  case isFalse =>
    cases swept
    exact ⟨rfl, rfl⟩
  case isTrue =>
    split at swept
    case h_1 => cases swept
    case h_2 =>
      cases swept
      exact ⟨rfl, rfl⟩

/-- The sweep is about the catalog only: it writes and rewrites no file. -/
theorem Run.sweepAll_frame {next : Run σ} (swept : run.sweepAll = .ok next) :
    next.disk = run.disk ∧ next.report.rewritten = run.report.rewritten := by
  rw [sweepAll] at swept
  split at swept
  case isTrue =>
    cases swept
    exact ⟨rfl, rfl⟩
  case isFalse someSeen =>
    clear someSeen
    generalize (Catalog.ids run.catalog : List Text) = ids at swept
    induction ids generalizing run with
    | nil =>
        cases swept
        exact ⟨rfl, rfl⟩
    | cons id ids ih =>
        rw [List.foldlM_cons] at swept
        obtain ⟨middle, first, later⟩ := exists_of_bind_eq_ok swept
        obtain ⟨sameDisk, sameRewritten⟩ := sweep_frame first
        obtain ⟨laterDisk, laterRewritten⟩ := ih later
        exact ⟨laterDisk.trans sameDisk, laterRewritten.trans sameRewritten⟩

end Synchronize

namespace Run

/-- A catalog in memory answers every definition with the identifier of an entry. -/
theorem exists_of_upsert {catalog next : MemoryCatalog} {definition : Definition} {upsert : Upsert}
    (sound : MemoryCatalog.Sound catalog.table)
    (answer : Catalog.upsert catalog definition = (.ok upsert, next)) :
    ∃ (guid : Guid) (outcome : Outcome), (catalog.upsert definition).1 = ⟨guid.braced, outcome⟩ ∧
      upsert = ⟨guid.braced, outcome⟩ ∧ next = (catalog.upsert definition).2 := by
  obtain ⟨guid, outcome, _, result⟩ := MemoryCatalog.upsert_cases sound definition
  obtain ⟨same, rfl⟩ := Prod.mk.inj answer
  obtain rfl := Except.ok.inj same
  exact ⟨guid, outcome, congrArg Prod.fst result, congrArg Prod.fst result, rfl⟩

variable {dryRun : Bool} {start run next : Run MemoryCatalog}

/-- **One file.** It is skipped, or its definition is handed over and the answer is counted. -/
theorem handOver_cases {file : SourceFile} (sound : MemoryCatalog.Sound run.catalog.table)
    (handed : handOver dryRun run file = .ok next) :
    Definition.ofText? file.content = none ∧ next.catalog = run.catalog ∧ next.seen = run.seen ∧
        next.report =
          { run.report with
            scanned := run.report.scanned + 1
            skipped := run.report.skipped ++ [file.path] } ∨
      ∃ definition guid outcome rewritten,
        Definition.ofText? file.content = some definition ∧
        (run.catalog.upsert definition).1 = ⟨guid.braced, outcome⟩ ∧
        next.catalog = (run.catalog.upsert definition).2 ∧ next.seen = run.seen ++ [guid] ∧
        next.report =
          { ({ run.report with scanned := run.report.scanned + 1 } : Report).count outcome with
            rewritten } := by
  have seen (guid : Guid) : run.seen ++ (Guid.parse? guid.braced).toList = run.seen ++ [guid] := by
    rw [Guid.parse?_braced, Option.toList_some]
  cases handsOver_of_handOver handed with
  | skipped undefined => exact Or.inl ⟨undefined, rfl, rfl, rfl⟩
  | kept defined answer _ =>
      obtain ⟨guid, outcome, answered, rfl, rfl⟩ := exists_of_upsert sound answer
      exact Or.inr ⟨_, guid, outcome, Report.rewritten (.count _ outcome), defined, answered, rfl,
        seen guid, rfl⟩
  | previewed _ defined answer _ _ | marked _ defined answer _ _ _ =>
      obtain ⟨guid, outcome, answered, rfl, rfl⟩ := exists_of_upsert sound answer
      exact Or.inr ⟨_, guid, outcome, Report.rewritten (.count _ outcome) ++ [file.path], defined,
        answered, rfl, seen guid, rfl⟩

/-- The definitions of files, in order. -/
def definitionsOf (files : List SourceFile) : List Definition :=
  files.filterMap fun file => Definition.ofText? file.content

/-- The number of definitions that a report counts. -/
def tally (report : Report) : Nat :=
  report.created + report.updated + report.unchanged

/-- Counting an outcome adds one. -/
theorem tally_count (report : Report) (outcome : Outcome) :
    tally (report.count outcome) = tally report + 1 := by
  cases outcome <;> simp only [tally, Report.count] <;> omega

/-- Counting an outcome changes no other number. -/
theorem count_frame (report : Report) (outcome : Outcome) :
    (report.count outcome).scanned = report.scanned ∧
      (report.count outcome).skipped = report.skipped ∧
      (report.count outcome).removed = report.removed := by
  cases outcome <;> exact ⟨rfl, rfl, rfl⟩

/-- What has been done when files have been handed over. -/
structure Handed (start : Run MemoryCatalog) (files : List SourceFile)
    (run : Run MemoryCatalog) : Prop where
  catalog : run.catalog = start.catalog.afterAll (definitionsOf files)
  seen : run.seen.map Guid.braced =
    start.seen.map Guid.braced ++ (start.catalog.answers (definitionsOf files)).map (·.2.id)
  scanned : run.report.scanned = start.report.scanned + files.length
  counted : tally run.report = tally start.report + (definitionsOf files).length
  skipped : run.report.skipped.length + (definitionsOf files).length =
    start.report.skipped.length + files.length
  removed : run.report.removed = start.report.removed

/-- Handing over a file keeps the table of the catalog sound. -/
theorem sound_of_handOver {file : SourceFile} (sound : MemoryCatalog.Sound run.catalog.table)
    (handed : handOver dryRun run file = .ok next) :
    MemoryCatalog.Sound next.catalog.table := by
  rcases handOver_cases sound handed with
    ⟨_, same, _⟩ | ⟨definition, guid, outcome, rewritten, _, _, same, _⟩
  · rw [same]
    exact sound
  · rw [same]
    exact sound.upsert definition

/-- **All files.** The catalog has been handed the definitions of the files, in order. -/
theorem handed_of_foldlM {files : List SourceFile}
    (sound : MemoryCatalog.Sound start.catalog.table)
    (done : files.foldlM (handOver dryRun) start = .ok run) : Handed start files run := by
  induction files generalizing start with
  | nil =>
      cases done
      exact ⟨rfl, by simp [definitionsOf, MemoryCatalog.answers], rfl, rfl, rfl, rfl⟩
  | cons file files ih =>
      rw [List.foldlM_cons] at done
      obtain ⟨next, first, later⟩ := exists_of_bind_eq_ok done
      obtain ⟨catalog, seen, scanned, counted, skipped, removed⟩ :=
        ih (sound_of_handOver sound first) later
      rcases handOver_cases sound first with
        ⟨absent, sameCatalog, sameSeen, report⟩ |
        ⟨definition, guid, outcome, rewritten, defined, answer, nextCatalog, nextSeen, report⟩
      · have definitions : definitionsOf (file :: files) = definitionsOf files := by
          simp [definitionsOf, absent]
        rw [sameCatalog] at catalog seen
        rw [report] at scanned counted skipped removed
        simp only [List.length_append, List.length_singleton, tally] at scanned counted skipped
        refine ⟨definitions ▸ catalog, by rw [definitions, seen, sameSeen], ?_, ?_, ?_, removed⟩
        · rw [scanned, List.length_cons]
          omega
        · rw [definitions]
          exact counted
        · rw [definitions, skipped, List.length_cons]
          omega
      · have definitions : definitionsOf (file :: files) = definition :: definitionsOf files := by
          simp [definitionsOf, defined]
        obtain ⟨sameScanned, sameSkipped, sameRemoved⟩ := count_frame
          { start.report with scanned := start.report.scanned + 1 } outcome
        have oneMore := tally_count
          { start.report with scanned := start.report.scanned + 1 } outcome
        rw [nextCatalog] at catalog seen
        rw [report] at scanned counted skipped removed
        simp only [sameScanned, sameSkipped, sameRemoved] at scanned skipped removed
        refine ⟨?_, ?_, ?_, ?_, ?_, removed⟩
        · rw [definitions, catalog, MemoryCatalog.afterAll]
        · rw [definitions, seen, nextSeen, MemoryCatalog.answers, answer]
          simp
        · rw [scanned, List.length_cons]
          omega
        · rw [definitions, List.length_cons]
          simp only [tally] at counted oneMore ⊢
          omega
        · rw [definitions, List.length_cons, List.length_cons]
          omega

namespace Handed

variable {files : List SourceFile}

theorem mem_seen_iff (handed : Handed start files run) (unseen : start.seen = []) (guid : Guid) :
    guid ∈ run.seen ↔
      guid.braced ∈ (start.catalog.answers (definitionsOf files)).map (·.2.id) := by
  have ids := handed.seen
  rw [unseen, List.map_nil, List.nil_append] at ids
  rw [← ids, List.mem_map]
  exact ⟨fun member => ⟨guid, member, rfl⟩,
    fun ⟨other, member, braced⟩ => Guid.braced_injective braced ▸ member⟩

theorem seen_eq_nil_iff (handed : Handed start files run) (unseen : start.seen = []) :
    run.seen = [] ↔ ∀ file ∈ files, Definition.ofText? file.content = none := by
  have lengths := congrArg List.length handed.seen
  rw [unseen, List.map_nil, List.nil_append, List.length_map, List.length_map,
    MemoryCatalog.length_answers] at lengths
  rw [← List.length_eq_zero_iff, lengths, List.length_eq_zero_iff, definitionsOf,
    List.filterMap_eq_nil_iff]

/-- Every file is counted once, with the outcome of its definition or among the skipped ones. -/
theorem balance (handed : Handed start files run) (blank : start.report = .empty) :
    run.report.scanned = files.length ∧
      run.report.scanned = tally run.report + run.report.skipped.length := by
  have scanned := handed.scanned
  have counted := handed.counted
  have skipped := handed.skipped
  simp only [blank, tally, Report.empty, List.length_nil] at scanned counted skipped ⊢
  omega

end Handed

/-- One step of the sweep: an entry that was answered stays, and any other is taken out. -/
theorem sweep_cases {guid : Guid} (swept : run.sweep guid.braced = .ok next) :
    guid ∈ run.seen ∧ next = run ∨
      guid ∉ run.seen ∧ next.seen = run.seen ∧
        next.catalog.table = run.catalog.table.filter (fun row => row.1 != guid.text) ∧
        next.report = { run.report with removed := run.report.removed ++ [guid.braced] } := by
  have orphan : run.isOrphan guid.braced = !run.seen.contains guid := by
    rw [isOrphan, Guid.parse?_braced, Option.all_some]
  rw [sweep, orphan] at swept
  by_cases answered : guid ∈ run.seen
  · rw [List.contains_iff_mem.mpr answered] at swept
    cases swept
    exact Or.inl ⟨answered, rfl⟩
  · have removal : (Catalog.remove run.catalog guid.braced : Except SyncError Unit × _) =
        run.catalog.remove guid.braced := rfl
    rw [if_pos (by simpa using answered), removal, MemoryCatalog.remove, MemoryCatalog.key?_braced]
      at swept
    by_cases known : (run.catalog.find? guid.text).isSome = true
    · simp only [known, if_true] at swept
      cases swept
      exact Or.inr ⟨answered, rfl, rfl, rfl⟩
    · simp only [known, Bool.false_eq_true, if_false] at swept
      cases swept

/-- **The sweep.** Of the given entries, those that were not answered are taken out, in order. -/
theorem foldlM_sweep {guids : List Guid}
    (swept : (guids.map Guid.braced).foldlM sweep run = .ok next) :
    next.catalog.table = run.catalog.table.filter
        (fun row => row.1 ∈ run.seen.map Guid.text ∨ row.1 ∉ guids.map Guid.text) ∧
      next.report =
        { run.report with
          removed := run.report.removed ++
            (guids.filter fun guid => guid ∉ run.seen).map Guid.braced } := by
  induction guids generalizing run with
  | nil =>
      cases swept
      exact ⟨(List.filter_eq_self.mpr fun row _ => by simp).symm, by simp⟩
  | cons guid guids ih =>
      rw [List.map_cons, List.foldlM_cons] at swept
      obtain ⟨middle, first, later⟩ := exists_of_bind_eq_ok swept
      obtain ⟨table, report⟩ := ih later
      rcases sweep_cases first with ⟨answered, rfl⟩ | ⟨orphaned, seen, kept, taken⟩
      · have known : guid.text ∈ middle.seen.map Guid.text := List.mem_map_of_mem answered
        rw [table, report, List.filter_cons, if_neg (by simpa using answered)]
        refine ⟨List.filter_congr fun row _ => ?_, rfl⟩
        by_cases same : row.1 = guid.text
        · rw [same, decide_eq_true (Or.inl known), decide_eq_true (Or.inl known)]
        · simp only [List.map_cons, List.mem_cons, not_or, same, not_false_eq_true, true_and]
      · have unknown : guid.text ∉ run.seen.map Guid.text := by
          intro member
          obtain ⟨other, inside, same⟩ := List.mem_map.mp member
          exact orphaned (Guid.eq_of_text_eq same ▸ inside)
        rw [table, report, kept, taken, seen, List.filter_filter, List.filter_cons,
          if_pos (by simpa using orphaned)]
        refine ⟨List.filter_congr fun row _ => ?_, by simp⟩
        by_cases same : row.1 = guid.text
        · simp [same, unknown]
        · simp [same]

/-- The sweep as a whole: entries under identifiers that were not answered are taken out. -/
theorem sweepAll_cases (sound : MemoryCatalog.Sound run.catalog.table)
    (swept : run.sweepAll = .ok next) :
    run.seen = [] ∧ next = run ∨
      run.seen ≠ [] ∧
        next.catalog.table =
          run.catalog.table.filter (fun row => row.1 ∈ run.seen.map Guid.text) ∧
        next.report =
          { run.report with
            removed := run.report.removed ++
              (run.catalog.table.filter fun row => row.1 ∉ run.seen.map Guid.text).map
                (fun row => row.2.id) } := by
  rw [sweepAll] at swept
  by_cases empty : run.seen = []
  · rw [empty] at swept
    cases swept
    exact Or.inl ⟨empty, rfl⟩
  · rw [if_neg (by simpa using empty)] at swept
    obtain ⟨guids, keys, ids⟩ := sound.exists_guids
    have listed : (Catalog.ids run.catalog : List Text) = guids.map Guid.braced :=
      run.catalog.ids_eq.trans ids
    rw [listed] at swept
    obtain ⟨table, report⟩ := foldlM_sweep swept
    refine Or.inr ⟨empty, ?_, ?_⟩
    · rw [table]
      refine List.filter_congr fun row member => ?_
      have known : row.1 ∈ guids.map Guid.text := keys ▸ List.mem_map_of_mem member
      simp only [known, not_true_eq_false, or_false]
    · rw [report, MemoryCatalog.map_id_filter keys ids]

section Outcome

variable {catalog : MemoryCatalog} {definitions : List Definition} {seen : List Guid}

/-- What is left of the entries when those that were not answered are taken out. -/
theorem mem_filter_afterAll_iff (sound : MemoryCatalog.Sound catalog.table)
    (answered : ∀ guid, guid ∈ seen ↔ guid.braced ∈ (catalog.answers definitions).map (·.2.id))
    {guid : Guid} {entry : Entry} :
    (guid.text, entry) ∈ (catalog.afterAll definitions).table.filter
        (fun row => row.1 ∈ seen.map Guid.text) ↔
      ∃ definition, MemoryCatalog.LastAnswer (catalog.answers definitions) guid definition ∧
        entry = Entry.ofDefinition guid.braced definition := by
  rw [List.mem_filter, MemoryCatalog.mem_afterAll_iff sound, decide_eq_true_iff,
    Guid.mem_map_text_iff, answered]
  constructor
  · rintro ⟨last | ⟨_, none⟩, member⟩
    · exact last
    · obtain ⟨answer, inside, same⟩ := List.mem_map.mp member
      exact absurd same (none answer inside)
  · rintro ⟨definition, last, same⟩
    exact ⟨Or.inl ⟨definition, last, same⟩, last.mem⟩

/-- The entries that are taken out are the old ones that were not answered. -/
theorem removed_eq (sound : MemoryCatalog.Sound catalog.table)
    (answered : ∀ guid, guid ∈ seen ↔ guid.braced ∈ (catalog.answers definitions).map (·.2.id)) :
    ((catalog.afterAll definitions).table.filter fun row => row.1 ∉ seen.map Guid.text).map
        (fun row => row.2.id) =
      catalog.ids.filter fun id => id ∉ (catalog.answers definitions).map (·.2.id) := by
  have old : (catalog.afterAll definitions).table.filter
        (fun row => row.1 ∉ seen.map Guid.text) =
      catalog.table.filter fun row => row.1 ∉ seen.map Guid.text := by
    let keeps (key : Text) : Bool := key ∉ seen.map Guid.text
    have drops : ∀ answer ∈ catalog.answers definitions, ∀ guid : Guid,
        answer.2.id = guid.braced → keeps guid.text = false := by
      intro answer member guid same
      have inside : guid ∈ seen := (answered guid).mpr (List.mem_map.mpr ⟨answer, member, same⟩)
      exact decide_eq_false fun absent => absent (Guid.mem_map_text_iff.mpr inside)
    exact MemoryCatalog.filter_afterAll sound drops
  rw [old, MemoryCatalog.ids_eq, List.filter_map]
  congr 1
  refine List.filter_congr fun row member => ?_
  obtain ⟨guid, keyed, stored⟩ := sound.inStep row member
  rw [Function.comp_apply, keyed, stored]
  simp only [Guid.mem_map_text_iff, answered]

/-- The identifiers that are left are those that were answered. -/
theorem mem_ids_iff {left : MemoryCatalog} (sound : MemoryCatalog.Sound catalog.table)
    (answered : ∀ guid, guid ∈ seen ↔ guid.braced ∈ (catalog.answers definitions).map (·.2.id))
    (table : left.table =
      (catalog.afterAll definitions).table.filter fun row => row.1 ∈ seen.map Guid.text)
    (id : Text) : id ∈ left.ids ↔ id ∈ (catalog.answers definitions).map (·.2.id) := by
  rw [MemoryCatalog.ids_eq, table]
  constructor
  · intro member
    obtain ⟨row, inside, rfl⟩ := List.mem_map.mp member
    obtain ⟨there, known⟩ := List.mem_filter.mp inside
    obtain ⟨guid, keyed, stored⟩ := (sound.afterAll definitions).inStep row there
    rw [keyed, decide_eq_true_iff, Guid.mem_map_text_iff] at known
    rw [stored]
    exact (answered guid).mp known
  · intro member
    obtain ⟨answer, inside, rfl⟩ := List.mem_map.mp member
    obtain ⟨guid, same⟩ := MemoryCatalog.exists_guid_of_mem_answers sound inside
    rw [same] at member ⊢
    obtain ⟨definition, last⟩ := MemoryCatalog.exists_lastAnswer member
    exact List.mem_map.mpr ⟨(guid.text, Entry.ofDefinition guid.braced definition),
      (mem_filter_afterAll_iff sound answered).mpr ⟨definition, last, rfl⟩, rfl⟩

/-- Each identifier that is left has the entry of the last definition answered with it. -/
theorem find?_of_lastAnswer {left : MemoryCatalog} (sound : MemoryCatalog.Sound catalog.table)
    (answered : ∀ guid, guid ∈ seen ↔ guid.braced ∈ (catalog.answers definitions).map (·.2.id))
    (table : left.table =
      (catalog.afterAll definitions).table.filter fun row => row.1 ∈ seen.map Guid.text)
    {guid : Guid} {definition : Definition}
    (last : MemoryCatalog.LastAnswer (catalog.answers definitions) guid definition) :
    left.find? guid.text = some (Entry.ofDefinition guid.braced definition) := by
  have kept : MemoryCatalog.Sound left.table := by
    rw [table]
    exact (sound.afterAll _).filter _
  apply MemoryCatalog.find?_eq_some kept.ordered
  rw [table]
  exact (mem_filter_afterAll_iff sound answered).mpr ⟨definition, last, rfl⟩

end Outcome

end Run

/-- **The catalog after a run.** When a run ends well, every file it scanned was counted once. If
any of them had a definition, the catalog holds exactly the identifiers that were answered, each
with the entry of the last definition answered with it, and what was removed are the other
identifiers of the old catalog, in its order. If none had, the catalog is as it was. -/
theorem synchronize_catalog {options : SyncOptions} {disk : Disk} {catalog : MemoryCatalog}
    {run : Run MemoryCatalog} (reachable : catalog.Reachable)
    (done : synchronize options disk catalog = .ok run) :
    let files := scannedFiles options disk catalog
    let answers := catalog.answers (Run.definitionsOf files)
    run.report.scanned = files.length ∧
    run.report.scanned = run.report.created + run.report.updated + run.report.unchanged +
      run.report.skipped.length ∧
    ((∃ file ∈ files, (Definition.ofText? file.content).isSome = true) →
      (∀ id, id ∈ run.catalog.ids ↔ id ∈ answers.map (·.2.id)) ∧
      (∀ guid definition, MemoryCatalog.LastAnswer answers guid definition →
        run.catalog.find? guid.text = some (Entry.ofDefinition guid.braced definition)) ∧
      run.report.removed = catalog.ids.filter (fun id => id ∉ answers.map (·.2.id)) ∧
      ∃ keys : List Guid, run.report.removed = keys.map Guid.braced ∧
        keys.Pairwise fun first second => first.text.precedes second.text = true) ∧
    ((∀ file ∈ files, Definition.ofText? file.content = none) →
      run.catalog = catalog ∧ run.report.removed = []) := by
  intro files answers
  obtain ⟨visited, handed, swept⟩ := exists_visited_of_synchronize done
  have sound := reachable.sound
  have all := Run.handed_of_foldlM sound handed
  have same : visited.catalog = catalog.afterAll (Run.definitionsOf files) := all.catalog
  have removed : visited.report.removed = [] := all.removed
  have answered := all.mem_seen_iff rfl
  have undefined := all.seen_eq_nil_iff rfl
  obtain ⟨total, balance⟩ := all.balance rfl
  have visitedSound : MemoryCatalog.Sound visited.catalog.table := same ▸ sound.afterAll _
  rcases Run.sweepAll_cases visitedSound swept with ⟨unseen, rfl⟩ | ⟨someSeen, table, report⟩
  · have absent := undefined.mp unseen
    refine ⟨total, balance, ?_, fun _ => ⟨?_, removed⟩⟩
    · rintro ⟨file, member, defined⟩
      rw [absent file member] at defined
      cases defined
    · have none : Run.definitionsOf files = [] := List.filterMap_eq_nil_iff.mpr absent
      rw [same, none]
      rfl
  · have taken : run.report.removed = catalog.ids.filter fun id => id ∉ answers.map (·.2.id) := by
      rw [report, removed, same]
      exact Run.removed_eq sound answered
    rw [same] at table
    refine ⟨?_, ?_, fun _ => ⟨?_, ?_, taken, ?_⟩,
      fun absent => absurd (undefined.mpr absent) someSeen⟩
    · rw [report]
      exact total
    · rw [report]
      exact balance
    · exact Run.mem_ids_iff sound answered table
    · intro guid definition last
      exact Run.find?_of_lastAnswer sound answered table last
    · rw [taken]
      exact MemoryCatalog.exists_keys sound _

/-- An entry that no file names is removed, and a new routine gets an entry. -/
theorem synchronize_catalog_orphan :
    let options : SyncOptions := ⟨[], ["functions".toList], "*.sql".toList, false⟩
    let disk := Disk.empty.putFile ["work".toList, "functions".toList, "f.sql".toList]
      (Utf8.encode "CREATE FUNCTION f() AS $$1$$".toList)
    let orphan := Definition.ofScript
      ⟨[], ⟨.procedure, []⟩, ['p'], [], [], .dollar [] [], [], none, []⟩
    let catalog := ((MemoryCatalog.empty Guid.numbered).upsert orphan).2
    ∃ run, synchronize options disk catalog = .ok run ∧
      run.report.removed = [(Guid.numbered 0).braced] ∧
      (Guid.numbered 1).braced ∈ run.catalog.ids := by
  intro options disk orphan catalog
  have reachable : catalog.Reachable := .upsert (.empty Guid.numbered) orphan
  have ends : (synchronize options disk catalog).isOk = true := by decide +kernel
  obtain ⟨run, done⟩ : ∃ run, synchronize options disk catalog = .ok run := by
    cases result : synchronize options disk catalog with
    | error halt => rw [result] at ends; cases ends
    | ok run => exact ⟨run, rfl⟩
  obtain ⟨_, _, defined, _⟩ := synchronize_catalog reachable done
  obtain ⟨ids, _, removed, _⟩ := defined (by decide +kernel)
  exact ⟨run, done, removed.trans (by decide +kernel), (ids _).mpr (by decide +kernel)⟩

end RoutineScripts
