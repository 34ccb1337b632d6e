import RoutineScripts.Proofs.Sync.Kept

/-!
# Marked libraries are fixpoints

In a library whose definitions all carry identifiers of their own, a run writes no file, and after
it the entry of every definition is in the catalog. So the next run finds everything as it left it
(`synchronize_fixpoint`).
-/

namespace RoutineScripts

section

variable {options : SyncOptions} {disk : Disk} {catalog : MemoryCatalog} {run : Run MemoryCatalog}

/-- **A run on a marked library.** It leaves the disk alone and records every definition, and every
entry it leaves is carried by a definition. -/
theorem synchronize_records (sound : MemoryCatalog.Sound catalog.table)
    (done : synchronize options disk catalog = .ok run)
    (kept : MemoryCatalog.Kept
      (catalog.answers (Run.definitionsOf (scannedFiles options disk catalog))))
    (distinct :
      ((Run.definitionsOf (scannedFiles options disk catalog)).map Definition.guid?).Nodup) :
    run.disk = disk ∧ run.report.rewritten = [] ∧ MemoryCatalog.Sound run.catalog.table ∧
      (∀ definition ∈ Run.definitionsOf (scannedFiles options disk catalog), ∀ guid,
        definition.guid? = some guid →
          run.catalog.find? guid.text = some (Entry.ofDefinition guid.braced definition)) ∧
      (Run.definitionsOf (scannedFiles options disk catalog) ≠ [] →
        ∀ row ∈ run.catalog.table,
          ∃ definition ∈ Run.definitionsOf (scannedFiles options disk catalog),
            definition.guid?.map Guid.text = some row.1) := by
  obtain ⟨visited, handing, swept⟩ := exists_visited_of_synchronize done
  obtain ⟨same, again, sameDisk, rewritten⟩ :=
    Run.foldlM_of_kept ⟨disk, catalog, .empty, []⟩ sound options.dryRun kept
  obtain rfl : visited = same := by
    rw [handing] at again
    exact Except.ok.inj again
  have handed := Run.handed_of_foldlM sound handing
  have visitedSound : MemoryCatalog.Sound visited.catalog.table :=
    handed.catalog ▸ sound.afterAll _
  have written : run.disk = disk := (Run.sweepAll_frame swept).1.trans sameDisk
  have answered := handed.mem_seen_iff rfl
  rcases Run.sweepAll_cases visitedSound swept with ⟨unseen, rfl⟩ | ⟨_, table, report⟩
  · have none : Run.definitionsOf (scannedFiles options disk catalog) = [] :=
      List.filterMap_eq_nil_iff.mpr ((handed.seen_eq_nil_iff rfl).mp unseen)
    refine ⟨written, rewritten, visitedSound, ?_, fun some => absurd none some⟩
    intro definition member
    rw [none] at member
    cases member
  · rw [handed.catalog] at table
    refine ⟨written, by rw [report]; exact rewritten, ?_, ?_, ?_⟩
    · rw [table]
      exact (sound.afterAll _).filter _
    · intro definition member guid named
      exact Run.find?_of_lastAnswer sound answered table (kept.lastAnswer distinct member named)
    · intro _ row member
      rw [table, List.mem_filter, decide_eq_true_iff] at member
      obtain ⟨guid, seen, same⟩ := List.mem_map.mp member.2
      obtain ⟨definition, inside, named⟩ := kept.mem_ids_iff.mp ((answered guid).mp seen)
      exact ⟨definition, inside, by rw [named, Option.map_some, same]⟩

/-- **Marked libraries are fixpoints.** When all definitions that a run scans carry identifiers, no
two of them the same, and the catalog has no entry of another kind under one of them, then a run
that ends well rewrites no file; and the next one ends well too, finds every definition unchanged,
rewrites and removes nothing, and leaves the catalog as it was. -/
theorem synchronize_fixpoint (reachable : catalog.Reachable)
    (done : synchronize options disk catalog = .ok run)
    (marked : ∀ definition ∈ Run.definitionsOf (scannedFiles options disk catalog),
      definition.marker.isSome = true)
    (distinct :
      ((Run.definitionsOf (scannedFiles options disk catalog)).map Definition.guid?).Nodup)
    (agrees : ∀ definition ∈ Run.definitionsOf (scannedFiles options disk catalog),
      ∀ row ∈ catalog.table, definition.guid?.map Guid.text = some row.1 →
        row.2.kind = definition.kind) :
    run.report.rewritten = [] ∧ run.disk = disk ∧
      ∃ again : Run MemoryCatalog, synchronize options run.disk run.catalog = .ok again ∧
        again.report.created = 0 ∧ again.report.updated = 0 ∧ again.report.rewritten = [] ∧
        again.report.removed = [] ∧
        again.report.unchanged =
          (Run.definitionsOf (scannedFiles options disk catalog)).length ∧
        again.disk = run.disk ∧ again.catalog = run.catalog := by
  have carried : ∀ definition ∈ Run.definitionsOf (scannedFiles options disk catalog),
      ∃ guid, definition.guid? = some guid := by
    intro definition member
    obtain ⟨file, _, defined⟩ := List.mem_filterMap.mp member
    exact Definition.exists_guid? defined (marked definition member)
  have sound := reachable.sound
  have kept := MemoryCatalog.kept_of_nodup sound carried distinct
    fun definition member guid entry named found =>
      agrees definition member _ (MemoryCatalog.mem_of_find? found)
        (by rw [named, Option.map_some])
  obtain ⟨sameDisk, rewritten, runSound, recorded, covered⟩ :=
    synchronize_records sound done kept distinct
  obtain ⟨pattern, visited, read, folders, _, scanned⟩ := exists_folders_of_synchronize done
  rw [scanned] at kept carried recorded covered
  obtain ⟨parts, loaded, flattened⟩ := Run.loadFolders_of_kept sound folders kept
  rw [scanned]
  rw [← flattened] at carried recorded covered ⊢
  obtain ⟨same, keptToo, unchanged⟩ :=
    MemoryCatalog.afterAll_of_recorded runSound fun definition member => by
      obtain ⟨guid, named⟩ := carried definition member
      exact ⟨guid, named, recorded definition member guid named⟩
  rw [← same] at covered
  obtain ⟨again, ends, againDisk, againCatalog, againRewritten, removed, numbers⟩ :=
    synchronize_of_kept runSound read loaded keptToo covered
  refine ⟨rewritten, sameDisk, again, by rw [sameDisk]; exact ends, ?_, ?_, againRewritten, removed,
    ?_, againDisk.trans sameDisk.symm, againCatalog.trans same⟩
  · refine (numbers .created).trans (List.countP_eq_zero.mpr fun answer member => ?_)
    simp [unchanged answer member]
  · refine (numbers .updated).trans (List.countP_eq_zero.mpr fun answer member => ?_)
    simp [unchanged answer member]
  · rw [← MemoryCatalog.length_answers run.catalog]
    refine (numbers .unchanged).trans (List.countP_eq_length.mpr fun answer member => ?_)
    simp [unchanged answer member]

/-- The first run creates the entry of the file that is there and removes the one of a routine that
is gone. -/
theorem synchronize_fixpoint_marked :
    let options : SyncOptions := ⟨[], ["functions".toList], "*.sql".toList, false⟩
    let disk := Disk.empty.putFile ["work".toList, "functions".toList, "f.sql".toList]
      (Utf8.encode ("CREATE FUNCTION f() AS $$\n-- @GUID ".toList ++ (Guid.numbered 7).braced ++
        "\nSELECT 1$$".toList))
    let gone := Definition.ofScript
      ⟨[], ⟨.procedure, []⟩, ['p'], [], [], .dollar [] [], [], none, []⟩
    let catalog := ((MemoryCatalog.empty Guid.numbered).upsert gone).2
    ∃ run, synchronize options disk catalog = .ok run ∧ run.report.created = 1 ∧
      run.report.removed = [(Guid.numbered 0).braced] ∧ run.disk = disk ∧
      ∃ again, synchronize options run.disk run.catalog = .ok again ∧
        again.report.unchanged = 1 ∧ again.report.removed = [] ∧ again.catalog = run.catalog := by
  intro options disk gone catalog
  have reachable : catalog.Reachable := .upsert (.empty Guid.numbered) gone
  have ends : ((synchronize options disk catalog).toOption.map fun run =>
      (run.report.created, run.report.removed)) = some (1, [(Guid.numbered 0).braced]) := by
    decide +kernel
  obtain ⟨run, done, report⟩ := Option.map_eq_some_iff.mp ends
  obtain ⟨created, removed⟩ := Prod.mk.inj report
  have ok := eq_ok_of_toOption done
  obtain ⟨_, same, again, settled, _, _, _, none, unchanged, _, kept⟩ :=
    synchronize_fixpoint reachable ok (by decide +kernel) (by decide +kernel) (by decide +kernel)
  exact ⟨run, ok, created, removed, same, again, settled, unchanged.trans (by decide +kernel), none,
    kept⟩

end

end RoutineScripts
