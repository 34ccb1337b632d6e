import RoutineScripts.Catalog.Replay
import RoutineScripts.Proofs.Sync.Halt

/-!
# The calls of a run

A catalog can record the calls that are made to it (`Recorded`). A run over it is the run over the
catalog itself, with a record (`synchronize_forget`), so that what it records are the calls of the
run (`callsOf`). These are the definitions handed over, one after the other, and then the removals
of the sweep, none of which names an identifier that was answered (`callsOf_synchronize`). Nothing
is asked of the catalog: identifiers may be spelled in any way, be answered twice, or differ from
those in the files.
-/

namespace RoutineScripts

/-- A call that may change a catalog, and the answer to it. -/
inductive Call
  | upsert (definition : Definition) (answer : Except SyncError Upsert)
  | remove (id : Text) (answer : Except SyncError Unit)

/-- A catalog and the calls that were made to it, in order. -/
structure Recorded (σ : Type) where
  catalog : σ
  calls : List Call

variable {σ : Type} [Catalog σ]

instance : Catalog (Recorded σ) where
  upsert recorded definition :=
    let (answer, catalog) := Catalog.upsert recorded.catalog definition
    (answer, ⟨catalog, recorded.calls ++ [.upsert definition answer]⟩)
  ids recorded := Catalog.ids recorded.catalog
  remove recorded id :=
    let (answer, catalog) := Catalog.remove recorded.catalog id
    (answer, ⟨catalog, recorded.calls ++ [.remove id answer]⟩)

namespace Catalog

/-- A definition that is handed to a recorded catalog is recorded with its answer. -/
theorem upsert_recorded {recorded : Recorded σ} {definition : Definition}
    {answer : Except SyncError Upsert} {next : σ}
    (handed : upsert recorded.catalog definition = (answer, next)) :
    upsert recorded definition =
      (answer, ⟨next, recorded.calls ++ [.upsert definition answer]⟩) := by
  have both : upsert recorded definition =
      ((upsert recorded.catalog definition).1, ⟨(upsert recorded.catalog definition).2,
        recorded.calls ++ [.upsert definition (upsert recorded.catalog definition).1]⟩) := rfl
  rw [both, handed]

/-- An identifier that a recorded catalog is asked to remove is recorded with the answer. -/
theorem remove_recorded {recorded : Recorded σ} {id : Text} {answer : Except SyncError Unit}
    {next : σ} (removed : remove recorded.catalog id = (answer, next)) :
    remove recorded id = (answer, ⟨next, recorded.calls ++ [.remove id answer]⟩) := by
  have both : remove recorded id =
      ((remove recorded.catalog id).1, ⟨(remove recorded.catalog id).2,
        recorded.calls ++ [.remove id (remove recorded.catalog id).1]⟩) := rfl
  rw [both, removed]

/-- A recorded catalog answers as the catalog does. -/
theorem answers_recorded (recorded : Recorded σ) (definitions : List Definition) :
    answers recorded definitions = answers recorded.catalog definitions := by
  induction definitions generalizing recorded with
  | nil => rfl
  | cons definition rest ih => exact congrArg (List.cons _) (ih _)

/-- What is handed over is recorded. -/
theorem afterAll_recorded (recorded : Recorded σ) (definitions : List Definition) :
    afterAll recorded definitions =
      ⟨afterAll recorded.catalog definitions,
        recorded.calls ++ (answers recorded.catalog definitions).map fun answer =>
          .upsert answer.1 answer.2⟩ := by
  induction definitions generalizing recorded with
  | nil => simp [afterAll, answers]
  | cons definition rest ih =>
      rw [afterAll, ih, answers, List.map_cons, List.append_cons]
      rfl

end Catalog

namespace Run

section Sweep

variable {run : Run σ} {id : Text} {next : σ}

/-- An identifier that is no orphan is kept. -/
theorem sweep_of_kept (kept : run.isOrphan id = false) : run.sweep id = .ok run := by
  rw [sweep, kept]
  rfl

/-- An orphan that the catalog does not remove ends the run. -/
theorem sweep_of_refused {error : SyncError} (orphan : run.isOrphan id = true)
    (refused : Catalog.remove run.catalog id = (.error error, next)) :
    run.sweep id = .error ⟨error, { run with catalog := next }⟩ := by
  rw [sweep, orphan, refused]
  rfl

/-- An orphan that the catalog removes is reported. -/
theorem sweep_of_removed {done : Unit} (orphan : run.isOrphan id = true)
    (removed : Catalog.remove run.catalog id = (.ok done, next)) :
    run.sweep id = .ok
      { run with
        catalog := next
        report := { run.report with removed := run.report.removed ++ [id] } } := by
  rw [sweep, orphan, removed]
  rfl

end Sweep

/-- The run over the catalog itself. -/
def forget (run : Run (Recorded σ)) : Run σ :=
  ⟨run.disk, run.catalog.catalog, run.report, run.seen⟩

/-- Handing a file over does not depend on the record. -/
theorem handOver_forget (dryRun : Bool) (run : Run (Recorded σ)) (file : SourceFile) :
    handOver dryRun run.forget file = mapEnding forget (handOver dryRun run file) := by
  unfold handOver
  cases Definition.ofText? file.content with
  | none => rfl
  | some definition =>
      have catalogs : run.forget.catalog = run.catalog.catalog := rfl
      simp only [catalogs]
      rcases handed : Catalog.upsert run.catalog.catalog definition with ⟨error | upsert, catalog⟩
      · simp only [Catalog.upsert_recorded handed]
        rfl
      · simp only [Catalog.upsert_recorded handed, placeMarker]
        split
        case isTrue => rfl
        case isFalse =>
          split
          case isTrue => rfl
          case isFalse =>
            split
            case isTrue => rfl
            case isFalse =>
              have disks : run.forget.disk = run.disk := rfl
              rw [disks]
              cases file.save (Marker.ensure file.content upsert.id) run.disk <;> rfl

/-- Handing files over does not depend on the record. -/
theorem foldlM_forget (dryRun : Bool) (run : Run (Recorded σ)) (files : List SourceFile) :
    files.foldlM (handOver dryRun) run.forget =
      mapEnding forget (files.foldlM (handOver dryRun) run) :=
  foldlM_mapEnding (handOver_forget dryRun) run files

section Folders

variable (options : SyncOptions) (pattern : Pattern) (run : Run (Recorded σ))

/-- Visiting a folder does not depend on the record. -/
theorem visitFolder_forget (folder : Text) :
    run.forget.visitFolder options pattern folder =
      mapEnding forget (run.visitFolder options pattern folder) := by
  have disks : run.forget.disk = run.disk := rfl
  rw [visitFolder_eq, visitFolder_eq, disks]
  cases run.disk.loadFolder options pattern folder with
  | error error => rfl
  | ok files => exact foldlM_forget _ _ _

/-- Visiting folders does not depend on the record. -/
theorem visitFolders_forget (folders : List Text) :
    folders.foldlM (visitFolder options pattern) run.forget =
      mapEnding forget (folders.foldlM (visitFolder options pattern) run) :=
  foldlM_mapEnding (visitFolder_forget options pattern) run folders

/-- The files of folders do not depend on the record. -/
theorem filesOf_forget (folders : List Text) :
    run.forget.filesOf options pattern folders = run.filesOf options pattern folders := by
  induction folders generalizing run with
  | nil => rfl
  | cons folder folders ih =>
      have files : run.forget.filesIn options pattern folder =
          run.filesIn options pattern folder := rfl
      rw [filesOf, filesOf, visitFolder_forget, files]
      cases run.visitFolder options pattern folder with
      | error halt => rfl
      | ok next => exact congrArg _ (ih next)

end Folders

/-- Sweeping an identifier does not depend on the record. -/
theorem sweep_forget (run : Run (Recorded σ)) (id : Text) :
    run.forget.sweep id = mapEnding forget (run.sweep id) := by
  have same : run.forget.isOrphan id = run.isOrphan id := rfl
  cases orphan : run.isOrphan id with
  | false =>
      rw [sweep_of_kept orphan, sweep_of_kept (same.trans orphan)]
      rfl
  | true =>
      rcases removed : Catalog.remove run.catalog.catalog id with ⟨error | done, catalog⟩
      · rw [sweep_of_refused orphan (Catalog.remove_recorded removed),
          sweep_of_refused (same.trans orphan) removed]
        rfl
      · rw [sweep_of_removed orphan (Catalog.remove_recorded removed),
          sweep_of_removed (same.trans orphan) removed]
        rfl

/-- Sweeping does not depend on the record. -/
theorem sweepAll_forget (run : Run (Recorded σ)) :
    run.forget.sweepAll = mapEnding forget run.sweepAll := by
  have seen : run.forget.seen = run.seen := rfl
  rw [sweepAll, sweepAll, seen]
  split
  case isTrue => rfl
  case isFalse =>
    exact foldlM_mapEnding sweep_forget run _

/-- An orphan is what none of the answered identifiers names. -/
theorem isOrphan_eq {τ : Type} {run : Run τ} {answered : List Text}
    (seen : run.seen = answered.filterMap Guid.parse?) (id : Text) :
    run.isOrphan id = answered.all fun other => !Guid.same id other := by
  rw [isOrphan, seen]
  -- What names no identifier is not the same as anything, and is always an orphan.
  cases read : Guid.parse? id with
  | none =>
      have different (other : Text) : Guid.same id other = false := by
        rw [Guid.same, read]
      simp [different]
  | some guid =>
      rw [Option.all_some, Bool.eq_iff_iff]
      simp only [Bool.not_eq_true', List.contains_eq_mem, decide_eq_false_iff_not,
        List.mem_filterMap, List.all_eq_true, not_exists, not_and]
      refine forall_congr' fun other => imp_congr_right fun _ => ?_
      rw [Guid.same, read]
      cases Guid.parse? other with
      | none => simp
      | some named =>
          simp only [Option.some.injEq, beq_eq_false_iff_ne]
          exact ne_comm

/-- **The sweep.** It removes orphans, in the order of the list, until a removal fails. -/
theorem exists_removals (run : Run (Recorded σ)) (ids : List Text) :
    ∃ removals : List (Text × Except SyncError Unit),
      (ending (ids.foldlM sweep run)).catalog.calls =
        run.catalog.calls ++ removals.map (fun removal => .remove removal.1 removal.2) ∧
      (∀ removal ∈ removals, run.isOrphan removal.1 = true) ∧
      ∀ last, ids.foldlM sweep run = .ok last →
        removals = (ids.filter run.isOrphan).map (fun id => (id, .ok ())) ∧
        last.report.removed = run.report.removed ++ ids.filter run.isOrphan := by
  induction ids generalizing run with
  | nil =>
      refine ⟨[], (List.append_nil _).symm, fun _ member => absurd member List.not_mem_nil,
        fun last done => ?_⟩
      cases done
      exact ⟨rfl, (List.append_nil _).symm⟩
  | cons id ids ih =>
      rw [List.foldlM_cons, List.filter_cons]
      cases orphan : run.isOrphan id with
      | false =>
          rw [sweep_of_kept orphan]
          exact ih run
      | true =>
          rcases removed : Catalog.remove run.catalog.catalog id with ⟨error | done, catalog⟩
          · rw [sweep_of_refused orphan (Catalog.remove_recorded removed)]
            refine ⟨[(id, .error error)], rfl, ?_, fun last done => ?_⟩
            · simpa using orphan
            · cases done
          · let next : Run (Recorded σ) :=
              { run with
                catalog := ⟨catalog, run.catalog.calls ++ [.remove id (.ok done)]⟩
                report := { run.report with removed := run.report.removed ++ [id] } }
            have goes : run.sweep id = .ok next :=
              sweep_of_removed orphan (Catalog.remove_recorded removed)
            have same : next.isOrphan = run.isOrphan := rfl
            obtain ⟨removals, calls, orphans, whole⟩ := ih next
            rw [goes]
            refine ⟨(id, .ok done) :: removals, ?_, ?_, fun last ends => ?_⟩
            · rw [List.map_cons, List.append_cons]
              exact calls
            · exact List.forall_mem_cons.mpr ⟨orphan, orphans⟩
            · obtain ⟨all, reported⟩ := whole last ends
              rw [all, reported, same]
              exact ⟨rfl, List.append_assoc _ _ _⟩

/-- What the sweep removes, when the run has seen the identifiers that some texts name. -/
theorem exists_removals_of_sweepAll {run : Run (Recorded σ)} {answered : List Text}
    (seen : run.seen = answered.filterMap Guid.parse?) :
    ∃ removals : List (Text × Except SyncError Unit),
      (ending run.sweepAll).catalog.calls =
        run.catalog.calls ++ removals.map (fun removal => .remove removal.1 removal.2) ∧
      (run.seen = [] → removals = []) ∧
      (∀ removal ∈ removals, ∀ id ∈ answered, Guid.same removal.1 id = false) ∧
      ∀ last, run.sweepAll = .ok last →
        (∀ removal ∈ removals, removal.2 = .ok ()) ∧
        last.report.removed = run.report.removed ++ removals.map (·.1) ∧
        (run.seen ≠ [] →
          removals.map (·.1) = (Catalog.ids run.catalog.catalog).filter fun id =>
            answered.all fun other => !Guid.same id other) := by
  by_cases unseen : run.seen = []
  · have stays : run.sweepAll = .ok run := by
      rw [sweepAll, unseen]
      rfl
    rw [stays]
    refine ⟨[], (List.append_nil _).symm, fun _ => rfl,
      fun _ member => absurd member List.not_mem_nil, ?_⟩
    rintro last ⟨⟩
    exact ⟨fun _ member => absurd member List.not_mem_nil, (List.append_nil _).symm,
      fun some => absurd unseen some⟩
  · have sweeps : run.sweepAll = (Catalog.ids run.catalog).foldlM sweep run := by
      rw [sweepAll, if_neg (by simpa using unseen)]
    rw [sweeps]
    obtain ⟨removals, calls, orphans, whole⟩ := run.exists_removals (Catalog.ids run.catalog)
    have orphan : run.isOrphan = fun id => answered.all fun other => !Guid.same id other :=
      funext (isOrphan_eq seen)
    refine ⟨removals, calls, fun none => absurd none unseen, fun removal member id named => ?_,
      fun last done => ?_⟩
    · have apart := orphans removal member
      rw [orphan, List.all_eq_true] at apart
      simpa using apart id named
    · obtain ⟨removed, reported⟩ := whole last done
      have ids : removals.map (·.1) = (Catalog.ids run.catalog).filter run.isOrphan := by
        rw [removed, List.map_map]
        exact List.map_id _
      refine ⟨fun removal member => ?_, by rw [reported, ids], fun _ => orphan ▸ ids⟩
      rw [removed] at member
      obtain ⟨id, _, rfl⟩ := List.mem_map.mp member
      rfl

end Run

section Synchronize

/-- A run over a catalog that records is the run over the catalog itself. -/
theorem synchronize_forget (options : SyncOptions) (disk : Disk) (recorded : Recorded σ) :
    synchronize options disk recorded.catalog =
      Run.mapEnding Run.forget (synchronize options disk recorded) := by
  unfold synchronize
  simp only
  cases Pattern.ofText options.pattern with
  | error error => rfl
  | ok pattern =>
      have same := Run.visitFolders_forget options pattern ⟨disk, recorded, .empty, []⟩
        options.folders
      have start : Run.forget (⟨disk, recorded, .empty, []⟩ : Run (Recorded σ)) =
          ⟨disk, recorded.catalog, .empty, []⟩ := rfl
      rw [start] at same
      simp only [same]
      cases options.folders.foldlM (Run.visitFolder options pattern)
          (⟨disk, recorded, .empty, []⟩ : Run (Recorded σ)) with
      | error halt => rfl
      | ok visited => exact visited.sweepAll_forget

/-- The files that are scanned do not depend on the record. -/
theorem scannedFiles_forget (options : SyncOptions) (disk : Disk) (recorded : Recorded σ) :
    scannedFiles options disk recorded.catalog = scannedFiles options disk recorded := by
  unfold scannedFiles
  cases Pattern.ofText options.pattern with
  | error error => rfl
  | ok pattern => exact Run.filesOf_forget options pattern ⟨disk, recorded, .empty, []⟩ _

/-- The calls that a run makes to its catalog, in order, whether it ends well or not. -/
def callsOf (options : SyncOptions) (disk : Disk) (catalog : σ) : List Call :=
  (Run.ending (synchronize options disk (⟨catalog, []⟩ : Recorded σ))).catalog.calls

/-- Where something was answered, and only with identifiers, one was seen. -/
theorem filterMap_answeredIds_ne_nil {answers : List (Definition × Except SyncError Upsert)}
    (some : answers ≠ []) (answered : ∀ answer ∈ answers, ∃ upsert, answer.2 = .ok upsert)
    (valid : ∀ id ∈ Catalog.answeredIds answers, (Guid.parse? id).isSome = true) :
    (Catalog.answeredIds answers).filterMap Guid.parse? ≠ [] := by
  obtain ⟨answer, member⟩ := List.exists_mem_of_ne_nil _ some
  obtain ⟨upsert, taken⟩ := answered answer member
  have named : upsert.id ∈ Catalog.answeredIds answers :=
    List.mem_filterMap.mpr ⟨answer, member, by rw [taken]; rfl⟩
  obtain ⟨guid, read⟩ := Option.isSome_iff_exists.mp (valid upsert.id named)
  exact List.ne_nil_of_mem (List.mem_filterMap.mpr ⟨upsert.id, named, read⟩)

/-- **The sweep never removes what a script was answered with.** For any catalog, the calls of a run
are the first of the definitions that it scans, handed over one after the other, and then the
removals of the sweep. When no definition was handed over nothing is removed, and no identifier that
was answered is removed, in whatever spelling. When the run ends well, all definitions were handed
over and answered, and the removals were done and are those that are reported. If what was answered
are identifiers, they are those that the catalog lists after the last definition and that no answer
names, in the order of the list. -/
theorem callsOf_synchronize (options : SyncOptions) (disk : Disk) (catalog : σ) :
    let definitions := Run.definitionsOf (scannedFiles options disk catalog)
    ∃ (handed : List Definition) (removals : List (Text × Except SyncError Unit)),
      handed <+: definitions ∧
      callsOf options disk catalog =
        (Catalog.answers catalog handed).map (fun answer => .upsert answer.1 answer.2) ++
          removals.map (fun removal => .remove removal.1 removal.2) ∧
      (handed = [] → removals = []) ∧
      (∀ removal ∈ removals, ∀ id ∈ Catalog.answeredIds (Catalog.answers catalog handed),
        Guid.same removal.1 id = false) ∧
      ∀ run, synchronize options disk catalog = .ok run →
        handed = definitions ∧
        (∀ answer ∈ Catalog.answers catalog handed, ∃ upsert, answer.2 = .ok upsert) ∧
        (∀ removal ∈ removals, removal.2 = .ok ()) ∧
        run.report.removed = removals.map (·.1) ∧
        (handed ≠ [] →
          (∀ id ∈ Catalog.answeredIds (Catalog.answers catalog handed),
            (Guid.parse? id).isSome = true) →
          removals.map (·.1) = (Catalog.ids (Catalog.afterAll catalog handed)).filter fun id =>
            (Catalog.answeredIds (Catalog.answers catalog handed)).all fun answered =>
              !Guid.same id answered) := by
  intro definitions
  let start : Run (Recorded σ) := ⟨disk, ⟨catalog, []⟩, .empty, []⟩
  have forgotten : synchronize options disk catalog = Run.mapEnding Run.forget
      (synchronize options disk start.catalog) := synchronize_forget options disk start.catalog
  have scanned : definitions = Run.definitionsOf (scannedFiles options disk start.catalog) :=
    congrArg Run.definitionsOf (scannedFiles_forget options disk start.catalog)
  have recorded (handed : List Definition) {run : Run (Recorded σ)}
      (advanced : Run.Advanced start handed run) :
      run.catalog = ⟨Catalog.afterAll catalog handed,
        (Catalog.answers catalog handed).map fun answer => .upsert answer.1 answer.2⟩ := by
    rw [advanced.catalog, Catalog.afterAll_recorded]
    exact congrArg _ (List.nil_append _)
  rcases synchronize_cases options disk start.catalog with ⟨error, stopped⟩ | ⟨visited, done, ends⟩
  · obtain ⟨handed, rest, split, advanced⟩ := Run.exists_advanced options.dryRun start
      (scannedFiles options disk start.catalog)
    refine ⟨handed, [], ⟨rest, split.symm.trans scanned.symm⟩, ?_, fun _ => rfl,
      fun _ member => absurd member List.not_mem_nil, fun run ok => ?_⟩
    · rw [callsOf, stopped, List.map_nil, List.append_nil]
      exact congrArg Recorded.calls (recorded handed advanced)
    · obtain ⟨last, well, _⟩ := Run.exists_of_mapEnding (forgotten.symm.trans ok)
      rw [stopped] at well
      cases well
  · obtain ⟨advanced, answered⟩ := Run.advanced_of_foldlM done
    rw [← scanned] at advanced answered
    rw [Catalog.answers_recorded] at answered
    have after := recorded definitions advanced
    have seen : visited.seen =
        (Catalog.answeredIds (Catalog.answers catalog definitions)).filterMap Guid.parse? := by
      rw [advanced.seen, Catalog.answers_recorded]
      exact List.nil_append _
    obtain ⟨removals, calls, none, apart, whole⟩ := Run.exists_removals_of_sweepAll seen
    rw [after] at calls whole
    refine ⟨definitions, removals, List.prefix_refl _, ?_, fun empty => none ?_, apart,
      fun run ok => ?_⟩
    · rw [callsOf, ends, calls]
    · rw [seen, empty]
      rfl
    · obtain ⟨last, swept, rfl⟩ := Run.exists_of_mapEnding (forgotten.symm.trans ok)
      obtain ⟨well, reported, others⟩ := whole last (ends.symm.trans swept)
      refine ⟨rfl, answered, well, ?_, fun some valid => others ?_⟩
      · rw [advanced.removed] at reported
        exact reported
      · rw [seen]
        refine filterMap_answeredIds_ne_nil (fun empty => some ?_) answered valid
        rw [← Catalog.map_fst_answers catalog definitions, empty]
        rfl

/-- Two scripts are answered with one identifier, without braces and in lower case. The catalog
lists it in another spelling, which stays, beside an identifier that goes. -/
theorem callsOf_synchronize_spellings :
    let disk := (Disk.empty.putFile
      ["work".toList, "db-lib".toList, "functions".toList, "f.sql".toList]
      (Utf8.encode "CREATE FUNCTION f() AS $$1$$".toList)).putFile
      ["work".toList, "db-lib".toList, "procedures".toList, "g.sql".toList]
      (Utf8.encode "CREATE PROCEDURE g() AS $$1$$".toList)
    let listed := "\x7b9968C379-A8C4-4D5A-9F23-4F79E7C3B5E9\x7d".toList
    let spelled := "9968c379-a8c4-4d5a-9f23-4f79e7c3b5e9".toList
    let orphan := "11111111-1111-4111-8111-11111111111a".toList
    let catalog : ReplayCatalog := ⟨[listed, orphan], [.answer ⟨spelled, .unchanged⟩], false⟩
    ∃ run removals, synchronize .standard disk catalog = .ok run ∧
      callsOf .standard disk catalog =
        (Catalog.answers catalog (Run.definitionsOf (scannedFiles .standard disk catalog))).map
          (fun answer => .upsert answer.1 answer.2) ++ removals ∧
      removals = [.remove orphan (.ok ())] ∧ run.report.removed = [orphan] := by
  intro disk listed spelled orphan catalog
  have ends : (synchronize .standard disk catalog).isOk = true := by decide +kernel
  obtain ⟨run, done⟩ : ∃ run, synchronize .standard disk catalog = .ok run := by
    cases result : synchronize .standard disk catalog with
    | error halt => rw [result] at ends; cases ends
    | ok run => exact ⟨run, rfl⟩
  obtain ⟨handed, removals, _, calls, _, _, whole⟩ := callsOf_synchronize .standard disk catalog
  obtain ⟨rfl, _, well, reported, others⟩ := whole run done
  have ids : removals.map (·.1) = [orphan] :=
    (others (by decide +kernel) (by decide +kernel)).trans (by decide +kernel)
  obtain ⟨⟨id, answer⟩, rest, rfl, same, none⟩ := List.map_eq_cons_iff.mp ids
  obtain rfl := List.map_eq_nil_iff.mp none
  have removed : answer = .ok () := well _ List.mem_cons_self
  refine ⟨run, _, done, calls, ?_, reported.trans ids⟩
  rw [List.map_singleton, removed, ← same]

end Synchronize

end RoutineScripts
