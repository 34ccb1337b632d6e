import RoutineScripts.Proofs.Sync.Kept

/-!
# Runs that stop

An error stops a run in the middle of a folder, or in the sweep. A file stops it in one of two ways
(`Run.Stops`). Whether files are handed over to the end or not, the catalog has been handed the
first of their definitions, and nothing else happened to it (`Run.exists_advanced`). A run stops in
such a state, or sweeps it (`synchronize_cases`). Two runs that correspond file by file end in the
same way (`Run.foldlM_mapEnding_of_spared`).
-/

namespace RoutineScripts

/-- A fold that fails stops at an element. The ones before it end well. -/
theorem exists_of_foldlM_eq_error {ε α β : Type} {step : β → α → Except ε β} {list : List α}
    {start : β} {error : ε} (failed : list.foldlM step start = .error error) :
    ∃ before element after middle, list = before ++ element :: after ∧
      before.foldlM step start = .ok middle ∧ step middle element = .error error := by
  induction list generalizing start with
  | nil => cases failed
  | cons first rest ih =>
      rw [List.foldlM_cons] at failed
      cases one : step start first with
      | error other =>
          rw [one] at failed
          cases failed
          exact ⟨[], first, rest, start, rfl, rfl, one⟩
      | ok next =>
          rw [one] at failed
          obtain ⟨before, element, after, middle, rfl, reached, stopped⟩ := ih failed
          refine ⟨first :: before, element, after, middle, rfl, ?_, stopped⟩
          rw [List.foldlM_cons, one]
          exact reached

section Handing

variable {σ : Type} [Catalog σ]

namespace Catalog

/-- A catalog after it was handed definitions, one after the other. -/
def afterAll : σ → List Definition → σ
  | catalog, [] => catalog
  | catalog, definition :: rest => afterAll (upsert catalog definition).2 rest

/-- The definitions that are handed over, each with the answer to it. -/
def answers : σ → List Definition → List (Definition × Except SyncError Upsert)
  | _, [] => []
  | catalog, definition :: rest =>
      (definition, (upsert catalog definition).1) :: answers (upsert catalog definition).2 rest

/-- The identifiers in answers. A failure has none. -/
def answeredIds (answers : List (Definition × Except SyncError Upsert)) : List Text :=
  answers.filterMap fun answer => answer.2.toOption.map Upsert.id

/-- Two lists of definitions are handed to a catalog one after the other. -/
theorem afterAll_append (catalog : σ) (first second : List Definition) :
    afterAll catalog (first ++ second) = afterAll (afterAll catalog first) second := by
  induction first generalizing catalog with
  | nil => rfl
  | cons definition rest ih => exact ih _

/-- A catalog answers two lists one after the other. -/
theorem answers_append (catalog : σ) (first second : List Definition) :
    answers catalog (first ++ second) =
      answers catalog first ++ answers (afterAll catalog first) second := by
  induction first generalizing catalog with
  | nil => rfl
  | cons definition rest ih => exact congrArg (List.cons _) (ih _)

/-- Every definition gets an answer, in order. -/
theorem map_fst_answers (catalog : σ) (definitions : List Definition) :
    (answers catalog definitions).map (·.1) = definitions := by
  induction definitions generalizing catalog with
  | nil => rfl
  | cons definition rest ih => exact congrArg (List.cons definition) (ih _)

end Catalog

end Handing

/-- A catalog in memory is the same after a list of definitions. -/
theorem MemoryCatalog.catalogAfterAll_eq (catalog : MemoryCatalog) (definitions : List Definition) :
    Catalog.afterAll catalog definitions = catalog.afterAll definitions := by
  induction definitions generalizing catalog with
  | nil => rfl
  | cons definition rest ih => exact ih _

namespace Run

section Ending

variable {σ τ : Type}

/-- The state in which a run ends, well or not. -/
def ending : Except (Halt σ) (Run σ) → Run σ
  | .ok run => run
  | .error halt => halt.run

/-- The error that a run ends with. -/
def failure? : Except (Halt σ) (Run σ) → Option SyncError
  | .ok _ => none
  | .error halt => some halt.error

/-- A failure is that of the run that halted. -/
theorem exists_of_failure? {result : Except (Halt σ) (Run σ)} {error : SyncError}
    (fails : failure? result = some error) : ∃ halt, result = .error halt ∧ halt.error = error := by
  cases result with
  | ok run => cases fails
  | error halt => exact ⟨halt, rfl, Option.some.inj fails⟩

/-- The same way to end, in another state. -/
def mapEnding (change : Run σ → Run τ) : Except (Halt σ) (Run σ) → Except (Halt τ) (Run τ)
  | .ok run => .ok (change run)
  | .error halt => .error ⟨halt.error, change halt.run⟩

/-- The end of a changed run is the changed end. -/
theorem ending_mapEnding (change : Run σ → Run τ) (result : Except (Halt σ) (Run σ)) :
    ending (mapEnding change result) = change (ending result) := by
  cases result <;> rfl

/-- A changed run fails as the run does. -/
theorem failure?_mapEnding (change : Run σ → Run τ) (result : Except (Halt σ) (Run σ)) :
    failure? (mapEnding change result) = failure? result := by
  cases result <;> rfl

/-- A changed run that ends well is that of a run that ends well. -/
theorem exists_of_mapEnding {change : Run σ → Run τ} {result : Except (Halt σ) (Run σ)}
    {run : Run τ} (done : mapEnding change result = .ok run) :
    ∃ last, result = .ok last ∧ change last = run := by
  cases result with
  | ok last => exact ⟨last, rfl, Except.ok.inj done⟩
  | error halt => cases done

/-- What every step keeps, to its end or not, is kept by the steps together. -/
theorem ending_foldlM {α : Type} {step : Run σ → α → Except (Halt σ) (Run σ)}
    {holds : Run σ → Prop}
    (steps : ∀ run element, holds run → holds (ending (step run element))) {run : Run σ}
    (start : holds run) (list : List α) : holds (ending (list.foldlM step run)) := by
  induction list generalizing run with
  | nil => exact start
  | cons first rest ih =>
      have next := steps run first start
      rw [List.foldlM_cons]
      cases one : step run first with
      | error halt => rwa [one] at next
      | ok middle => exact ih (by rwa [one] at next)

/-- A run does not end with one of the given errors. -/
def Spared (excluded : SyncError → Prop) (result : Except (Halt σ) (Run σ)) : Prop :=
  ∀ error, failure? result = some error → ¬ excluded error

/-- A run does not end with an error in writing a file. -/
def WritesAll (result : Except (Halt σ) (Run σ)) : Prop :=
  ∀ path fault, failure? result ≠ some (.unwritable path fault)

/-- A run is spared write errors exactly when it writes all. -/
theorem spared_iff_writesAll {result : Except (Halt σ) (Run σ)} :
    Spared (fun error => ∃ path fault, error = .unwritable path fault) result ↔
      WritesAll result := by
  constructor
  · exact fun spared path fault fails => spared _ fails ⟨path, fault, rfl⟩
  · rintro written error fails ⟨path, fault, rfl⟩
    exact written path fault fails

/-- **Runs in step.** When two kinds of steps correspond as long as something holds of the state and
of what is left to do, so do the runs made of them. Steps that end with one of the excluded errors
need not correspond if the run does not. -/
theorem foldlM_mapEnding_of_spared {α : Type} {change : Run σ → Run τ}
    {step : Run σ → α → Except (Halt σ) (Run σ)} {other : Run τ → α → Except (Halt τ) (Run τ)}
    (excluded : SyncError → Prop) (holds : Run σ → List α → Prop)
    (steps : ∀ run first rest, holds run (first :: rest) → Spared excluded (step run first) →
      other (change run) first = mapEnding change (step run first) ∧
        ∀ next, step run first = .ok next → holds next rest)
    {run : Run σ} {list : List α} (start : holds run list)
    (spared : Spared excluded (list.foldlM step run)) :
    list.foldlM other (change run) = mapEnding change (list.foldlM step run) := by
  induction list generalizing run with
  | nil => rfl
  | cons first rest ih =>
      rw [List.foldlM_cons] at spared ⊢
      rw [List.foldlM_cons]
      cases one : step run first with
      | error halt =>
          rw [one] at spared
          rw [(steps run first rest start (one ▸ spared)).1, one]
          rfl
      | ok next =>
          have well : Spared excluded (step run first) := by
            rw [one]
            exact fun _ impossible => nomatch impossible
          obtain ⟨same, goesOn⟩ := steps run first rest start well
          rw [one] at spared
          rw [same, one]
          exact ih (goesOn next one) spared

/-- Steps that always correspond make runs that do. -/
theorem foldlM_mapEnding {α : Type} {change : Run σ → Run τ}
    {step : Run σ → α → Except (Halt σ) (Run σ)} {other : Run τ → α → Except (Halt τ) (Run τ)}
    (steps : ∀ run element, other (change run) element = mapEnding change (step run element))
    (run : Run σ) (list : List α) :
    list.foldlM other (change run) = mapEnding change (list.foldlM step run) :=
  foldlM_mapEnding_of_spared (fun _ => False) (fun _ _ => True)
    (fun run first _ _ _ => ⟨steps run first, fun _ _ => trivial⟩) trivial fun _ _ => id

end Ending

variable {σ : Type} [Catalog σ]

/-- **A file that stops a run.** -/
inductive Stops (dryRun : Bool) (run : Run σ) (file : SourceFile) : Halt σ → Prop
  /-- The catalog does not take its definition. -/
  | refused {definition : Definition} {error : SyncError} {catalog : σ}
      (defined : Definition.ofText? file.content = some definition)
      (answer : Catalog.upsert run.catalog definition = (.error error, catalog)) :
      Stops dryRun run file
        ⟨error,
          { run with
            catalog
            report := { run.report with scanned := run.report.scanned + 1 } }⟩
  /-- It cannot be written, or not to the end. -/
  | unwritable {definition : Definition} {upsert : Upsert} {catalog : σ} {fault : Fault}
      {disk : Disk} (wet : dryRun = false)
      (defined : Definition.ofText? file.content = some definition)
      (answer : Catalog.upsert run.catalog definition = (.ok upsert, catalog))
      (changes : Marker.ensure file.content upsert.id ≠ file.content)
      (unwritten : run.disk.write file.path
        (file.encoding.encode (Marker.ensure file.content upsert.id)) = .error (fault, disk)) :
      Stops dryRun run file
        ⟨.unwritable file.path fault, { run.answered upsert catalog with disk }⟩

/-- Handing a file over fails in one of these ways. -/
theorem stops_of_handOver {dryRun : Bool} {run : Run σ} {file : SourceFile} {halt : Halt σ}
    (failed : handOver dryRun run file = .error halt) : Stops dryRun run file halt := by
  unfold handOver at failed
  simp only at failed
  split at failed
  case h_1 => cases failed
  case h_2 definition defined =>
    split at failed
    case h_1 error catalog answer =>
      cases failed
      exact .refused defined answer
    case h_2 upsert catalog answer =>
      unfold placeMarker at failed
      simp only at failed
      split at failed
      case isTrue => cases failed
      case isFalse =>
        split at failed
        case isTrue => cases failed
        case isFalse changes =>
          split at failed
          case isTrue => cases failed
          case isFalse wet =>
            split at failed
            case h_2 => cases failed
            case h_1 error disk unsaved =>
              cases failed
              obtain ⟨fault, rfl, unwritten⟩ := SourceFile.write_of_save_error unsaved
              exact .unwritable (by simpa using wet) defined answer changes unwritten

/-- What has been done when definitions have been handed over, and nothing was swept. -/
structure Advanced (start : Run σ) (definitions : List Definition) (run : Run σ) : Prop where
  catalog : run.catalog = Catalog.afterAll start.catalog definitions
  seen : run.seen = start.seen ++
    (Catalog.answeredIds (Catalog.answers start.catalog definitions)).filterMap Guid.parse?
  removed : run.report.removed = start.report.removed

namespace Advanced

variable {start run last : Run σ}

theorem nil (run : Run σ) : Advanced run [] run :=
  ⟨rfl, (List.append_nil _).symm, rfl⟩

theorem append {first second : List Definition} (before : Advanced start first run)
    (after : Advanced run second last) : Advanced start (first ++ second) last := by
  refine ⟨?_, ?_, after.removed.trans before.removed⟩
  · rw [after.catalog, before.catalog, Catalog.afterAll_append]
  · rw [after.seen, before.seen, before.catalog, Catalog.answers_append, Catalog.answeredIds,
      Catalog.answeredIds, Catalog.answeredIds, List.filterMap_append, List.filterMap_append,
      List.append_assoc]

end Advanced

variable {dryRun : Bool} {options : SyncOptions} {pattern : Pattern} {run next : Run σ}
  {file : SourceFile} {files : List SourceFile}

/-- A file without a definition hands none over. -/
theorem definitionsOf_of_undefined (undefined : Definition.ofText? file.content = none) :
    definitionsOf [file] = [] := by
  simp [definitionsOf, undefined]

/-- A file with a definition hands that one over. -/
theorem definitionsOf_of_defined {definition : Definition}
    (defined : Definition.ofText? file.content = some definition) :
    definitionsOf [file] = [definition] := by
  simp [definitionsOf, defined]

/-- An answer advances a run by its definition. -/
theorem advanced_answered {definition : Definition} {upsert : Upsert} {catalog : σ}
    (answer : Catalog.upsert run.catalog definition = (.ok upsert, catalog)) :
    Advanced run [definition] (run.answered upsert catalog) := by
  refine ⟨?_, ?_, (count_frame _ upsert.outcome).2.2⟩
  · simp only [Catalog.afterAll, answer, answered]
  · simp only [Catalog.answers, Catalog.answeredIds, answer, answered, List.filterMap_cons,
      Except.toOption, Option.map_some]
    cases Guid.parse? upsert.id <;> rfl

/-- A file is handed over with its definition, and the catalog does not fail. -/
theorem HandsOver.advanced (step : HandsOver dryRun run file next) :
    Advanced run (definitionsOf [file]) next ∧
      ∀ answer ∈ Catalog.answers run.catalog (definitionsOf [file]),
        ∃ upsert, answer.2 = .ok upsert := by
  cases step with
  | skipped undefined =>
      rw [definitionsOf_of_undefined undefined]
      exact ⟨⟨rfl, (List.append_nil _).symm, rfl⟩,
        fun answer member => absurd member List.not_mem_nil⟩
  | @kept _ upsert _ defined answer _ | @previewed _ upsert _ _ defined answer _ _
  | @marked _ upsert _ _ _ defined answer _ _ _ =>
      have counted := advanced_answered answer
      rw [definitionsOf_of_defined defined]
      refine ⟨⟨counted.catalog, counted.seen, counted.removed⟩, ?_⟩
      simp only [Catalog.answers, answer, List.forall_mem_singleton]
      exact ⟨upsert, rfl⟩

/-- A run that stops has handed the definition over. -/
theorem Stops.advanced {halt : Halt σ} (stops : Stops dryRun run file halt) :
    Advanced run (definitionsOf [file]) halt.run := by
  cases stops with
  | refused defined answer =>
      rw [definitionsOf_of_defined defined]
      refine ⟨?_, ?_, rfl⟩
      · simp only [Catalog.afterAll, answer]
      · simp only [Catalog.answers, Catalog.answeredIds, answer, List.filterMap_cons,
          List.filterMap_nil, Except.toOption, Option.map_none, List.append_nil]
  | unwritable _ defined answer _ _ =>
      have counted := advanced_answered answer
      rw [definitionsOf_of_defined defined]
      exact ⟨counted.catalog, counted.seen, counted.removed⟩

/-- A run that hands files over is advanced by their definitions, and gets an answer for each. -/
theorem advanced_of_foldlM (done : files.foldlM (handOver dryRun) run = .ok next) :
    Advanced run (definitionsOf files) next ∧
      ∀ answer ∈ Catalog.answers run.catalog (definitionsOf files),
        ∃ upsert, answer.2 = .ok upsert := by
  induction files generalizing run with
  | nil =>
      cases done
      exact ⟨.nil _, fun answer member => absurd member List.not_mem_nil⟩
  | cons file files ih =>
      rw [List.foldlM_cons] at done
      obtain ⟨middle, first, later⟩ := exists_of_bind_eq_ok done
      obtain ⟨step, answered⟩ := (handsOver_of_handOver first).advanced
      obtain ⟨others, othersAnswered⟩ := ih later
      have split : definitionsOf (file :: files) = definitionsOf [file] ++ definitionsOf files :=
        definitionsOf_append [file] files
      rw [split, Catalog.answers_append, ← step.catalog]
      exact ⟨step.append others, List.forall_mem_append.mpr ⟨answered, othersAnswered⟩⟩

/-- **Handing over files, to the end or not.** The catalog has been handed the first of their
definitions. -/
theorem exists_advanced (dryRun : Bool) (run : Run σ) (files : List SourceFile) :
    ∃ handed rest, definitionsOf files = handed ++ rest ∧
      Advanced run handed (ending (files.foldlM (handOver dryRun) run)) := by
  cases result : files.foldlM (handOver dryRun) run with
  | ok next => exact ⟨_, [], (List.append_nil _).symm, (advanced_of_foldlM result).1⟩
  | error halt =>
      obtain ⟨before, file, after, middle, rfl, reached, failed⟩ := exists_of_foldlM_eq_error result
      refine ⟨definitionsOf before ++ definitionsOf [file], definitionsOf after, ?_,
        (advanced_of_foldlM reached).1.append (stops_of_handOver failed).advanced⟩
      rw [← definitionsOf_append, ← definitionsOf_append, List.append_assoc]
      rfl

section Folders

variable {folder : Text} {folders : List Text} {halt : Halt σ} {error : SyncError}

/-- A folder that cannot be read stops the run before any of its files is handed over. -/
theorem visitFolder_of_loadFolder_error
    (failed : run.disk.loadFolder options pattern folder = .error error) :
    run.visitFolder options pattern folder = .error ⟨error, run⟩ ∧
      run.filesIn options pattern folder = [] := by
  rw [visitFolder_eq, filesIn_eq, failed]
  exact ⟨rfl, rfl⟩

/-- **A folder that stops a run.** The folders before it were visited. Then it could not be read,
and the run stopped there, or one of its files stopped it. -/
theorem exists_of_visitFolders_error
    (failed : folders.foldlM (visitFolder options pattern) run = .error halt) :
    ∃ before folder after middle, folders = before ++ folder :: after ∧
      before.foldlM (visitFolder options pattern) run = .ok middle ∧
      (middle.disk.loadFolder options pattern folder = .error halt.error ∧ halt.run = middle ∨
        ∃ earlier file later reached,
          middle.disk.loadFolder options pattern folder = .ok (earlier ++ file :: later) ∧
          earlier.foldlM (handOver options.dryRun) middle = .ok reached ∧
          Stops options.dryRun reached file halt) := by
  obtain ⟨before, folder, after, middle, rfl, visited, stopped⟩ := exists_of_foldlM_eq_error failed
  refine ⟨before, folder, after, middle, rfl, visited, ?_⟩
  cases loaded : middle.disk.loadFolder options pattern folder with
  | error error =>
      rw [(visitFolder_of_loadFolder_error loaded).1] at stopped
      cases stopped
      exact Or.inl ⟨rfl, rfl⟩
  | ok files =>
      rw [visitFolder_of_loadFolder loaded] at stopped
      obtain ⟨earlier, file, later, reached, rfl, handed, last⟩ := exists_of_foldlM_eq_error stopped
      exact Or.inr ⟨earlier, file, later, reached, rfl, handed, stops_of_handOver last⟩

/-- Visiting folders ends where handing over their files ends. -/
theorem ending_visitFolders (options : SyncOptions) (pattern : Pattern) (run : Run σ)
    (folders : List Text) :
    ending (folders.foldlM (visitFolder options pattern) run) =
      ending ((run.filesOf options pattern folders).foldlM (handOver options.dryRun) run) := by
  induction folders generalizing run with
  | nil => rfl
  | cons folder folders ih =>
      rw [List.foldlM_cons, filesOf]
      cases loaded : run.disk.loadFolder options pattern folder with
      | error error =>
          obtain ⟨stopped, unread⟩ := visitFolder_of_loadFolder_error loaded
          rw [stopped, unread]
          rfl
      | ok files =>
          rw [visitFolder_of_loadFolder loaded, filesIn_of_loadFolder loaded, List.foldlM_append]
          cases handed : files.foldlM (handOver options.dryRun) run with
          | error halt => rfl
          | ok next => exact ih next

/-- A file that stops handing over what is scanned in folders stops visiting them. -/
theorem visitFolders_of_foldlM_error
    (failed : (run.filesOf options pattern folders).foldlM (handOver options.dryRun) run =
      .error halt) :
    folders.foldlM (visitFolder options pattern) run = .error halt := by
  induction folders generalizing run with
  | nil => cases failed
  | cons folder folders ih =>
      rw [filesOf] at failed
      rw [List.foldlM_cons]
      cases loaded : run.disk.loadFolder options pattern folder with
      | error error =>
          obtain ⟨stopped, unread⟩ := visitFolder_of_loadFolder_error loaded
          rw [stopped, unread] at failed
          cases failed
      | ok files =>
          rw [visitFolder_of_loadFolder loaded, filesIn_of_loadFolder loaded, List.foldlM_append]
            at failed
          rw [visitFolder_of_loadFolder loaded]
          cases handed : files.foldlM (handOver options.dryRun) run with
          | error other =>
              rw [handed] at failed
              cases failed
              rfl
          | ok next =>
              rw [handed] at failed
              exact ih failed

end Folders

end Run

section Synchronize

variable {σ : Type} [Catalog σ]

/-- **How a run ends.** It stops where handing over the files that it scans ends, or it hands over
all of them and sweeps. -/
theorem synchronize_cases (options : SyncOptions) (disk : Disk) (catalog : σ) :
    (∃ error, synchronize options disk catalog =
      .error ⟨error, Run.ending ((scannedFiles options disk catalog).foldlM
        (Run.handOver options.dryRun) ⟨disk, catalog, .empty, []⟩)⟩) ∨
      ∃ visited, (scannedFiles options disk catalog).foldlM (Run.handOver options.dryRun)
          ⟨disk, catalog, .empty, []⟩ = .ok visited ∧
        synchronize options disk catalog = visited.sweepAll := by
  unfold synchronize scannedFiles
  simp only
  cases Pattern.ofText options.pattern with
  | error error => exact Or.inl ⟨_, rfl⟩
  | ok pattern =>
      simp only
      have same := Run.ending_visitFolders options pattern (⟨disk, catalog, .empty, []⟩ : Run σ)
        options.folders
      cases folders : options.folders.foldlM (Run.visitFolder options pattern)
          (⟨disk, catalog, .empty, []⟩ : Run σ) with
      | error halt =>
          rw [folders] at same
          exact Or.inl ⟨halt.error, by rw [← same]; rfl⟩
      | ok visited => exact Or.inr ⟨visited, Run.foldlM_of_visitFolders folders, rfl⟩

/-- A file that stops handing over what is scanned stops the run. -/
theorem synchronize_of_foldlM_error {options : SyncOptions} {disk : Disk} {catalog : σ}
    {halt : Halt σ}
    (failed : (scannedFiles options disk catalog).foldlM (Run.handOver options.dryRun)
      ⟨disk, catalog, .empty, []⟩ = .error halt) :
    synchronize options disk catalog = .error halt := by
  unfold scannedFiles at failed
  unfold synchronize
  cases read : Pattern.ofText options.pattern with
  | error error =>
      simp only [read] at failed
      cases failed
  | ok pattern =>
      simp only [read] at failed
      simp only [Run.visitFolders_of_foldlM_error failed]

/-- **Where a run stops.** The pattern is no pattern, a folder stops it, or the sweep does. -/
theorem synchronize_error_cases {options : SyncOptions} {disk : Disk} {catalog : σ} {halt : Halt σ}
    (fails : synchronize options disk catalog = .error halt) :
    (∃ error, halt = ⟨.invalidPattern options.pattern error, ⟨disk, catalog, .empty, []⟩⟩) ∨
      ∃ pattern, Pattern.ofText options.pattern = .ok pattern ∧
        (options.folders.foldlM (Run.visitFolder options pattern) ⟨disk, catalog, .empty, []⟩ =
            .error halt ∨
          ∃ visited, options.folders.foldlM (Run.visitFolder options pattern)
              ⟨disk, catalog, .empty, []⟩ = .ok visited ∧
            visited.sweepAll = .error halt) := by
  unfold synchronize at fails
  simp only at fails
  split at fails
  case h_1 error _ =>
    cases fails
    exact Or.inl ⟨error, rfl⟩
  case h_2 pattern read =>
    split at fails
    case h_1 stopped =>
      cases fails
      exact Or.inr ⟨pattern, read, Or.inl stopped⟩
    case h_2 visited folders => exact Or.inr ⟨pattern, read, Or.inr ⟨visited, folders, fails⟩⟩

end Synchronize

end RoutineScripts
