import RoutineScripts.Proofs.Files.Walk
import RoutineScripts.Proofs.Marker.Carrying
import RoutineScripts.Proofs.Sync.Footprint

/-!
# Identities that last

When a run is over, the file of every answer carries the identifier that was answered, if it carried
it before or a marker could be put into it (`SourceFile.Markable`). That is an invariant of the run
(`Run.Holds`): a file that is handed over carries the answer to it afterwards
(`Run.HandsOver.exists_holds`), and no later file takes it away (`Run.Holds.step`), since files are
at places of their own and the catalog answers a file that is read once more with the identifier it
carries (`Run.Holds.settled`). So the next run creates and removes nothing
(`synchronize_keeps_ids`).
-/

namespace RoutineScripts

section ReadingBack

variable {bytes : Bytes} {text : Text}

/-- The text of a file in UTF-8 without a mark does not start with one. -/
theorem SourceEncoding.head?_decode (plain : (decode bytes).2 = utf8 false) :
    ((decode bytes).1.head?.any fun c => c == byteOrderMark) = false := by
  unfold decode at plain ⊢
  split
  case h_1 missing => simp [missing] at plain
  case h_2 => rfl
  case h_3 c rest found =>
    simp only [found] at plain
    split at plain
    case isTrue => cases plain
    case isFalse other =>
      rw [if_neg other]
      simpa using other

/-- A text that starts like the content of a file is read back from it. -/
theorem SourceEncoding.decode_encode_of_head?
    (head : (text.head?.any fun c => c == byteOrderMark) =
      (decode bytes).1.head?.any fun c => c == byteOrderMark)
    (back : (decode bytes).2.ReadsBack text) :
    (decode ((decode bytes).2.encode text)).1 = text := by
  rcases back.decode_encode with same | ⟨plain, shape⟩
  · exact same
  · rw [head?_decode plain, shape] at head
    cases head

end ReadingBack

namespace Disk

variable {disk next : Disk} {path : Text} {kind : Kind} {guid : Guid}

/-- Disks of the same shape have the same names. -/
theorem SameShape.named (same : SameShape disk next) : disk.root.Named ↔ next.root.Named := by
  rw [← Folder.named_bare, same.root, Folder.named_bare]

/-- Files at one place have one content. -/
theorem content_eq_of_load {file other : SourceFile}
    (loaded : SourceFile.load disk file.path = .ok file)
    (loadedToo : SourceFile.load disk path = .ok other)
    (same : disk.place? path = disk.place? file.path) : other.content = file.content := by
  obtain ⟨bytes, read, shape⟩ := SourceFile.load_eq_ok_iff.mp loaded
  obtain ⟨otherBytes, readToo, rfl⟩ := SourceFile.load_eq_ok_iff.mp loadedToo
  obtain ⟨place, found, _, there⟩ := read_eq_ok_iff.mp read
  obtain ⟨otherPlace, foundToo, _, thereToo⟩ := read_eq_ok_iff.mp readToo
  rw [same, found] at foundToo
  cases foundToo
  rw [there] at thereToo
  cases thereToo
  rw [shape]

/-- A file carries its identifier as long as it does not change. -/
theorem Carries.of_sameShape (carries : disk.Carries path kind guid) (same : SameShape disk next)
    (agrees : ∀ place, disk.place? path = some place → next.fileAt place = disk.fileAt place) :
    next.Carries path kind guid := by
  obtain ⟨file, definition, loaded, defined, ofKind, named⟩ := carries
  refine ⟨file, definition, ?_, defined, ofKind, named⟩
  rw [← loaded, SourceFile.load, SourceFile.load, same.read_eq agrees]

/-- The files of a sub-folder are at places of their own. -/
theorem pairwise_place?_of_loadFolder {options : SyncOptions} {pattern : Pattern} {folder : Text}
    {files : List SourceFile} (named : disk.root.Named)
    (loaded : disk.loadFolder options pattern folder = .ok files) :
    files.Pairwise fun first second => disk.place? first.path ≠ disk.place? second.path := by
  have apart : (files.map (·.path)).Pairwise fun first second =>
      disk.place? first ≠ disk.place? second := by
    rw [map_path_of_loadFolder loaded, collected]
    split
    case isTrue there =>
      split
      case h_1 => exact List.Pairwise.nil
      case h_2 found => exact pairwise_place?_of_collect named there found
    case isFalse => exact List.Pairwise.nil
  rw [List.pairwise_map] at apart
  exact apart

end Disk

/-- The file can be marked with an identifier: a marker has a place in its script, no other marker
shadows it, what is marked is still a script, and it is read back as it is written. -/
structure SourceFile.Markable (file : SourceFile) (id : Text) : Prop where
  placeable : Marker.hasPlace file.content = true
  plain : ¬ Marker.Shadowed file.content id
  whole : (Definition.ofText? (Marker.ensure file.content id)).isSome = true
  back : file.encoding.ReadsBack (Marker.ensure file.content id)

/-- A file in UTF-8 without a marker can be marked with any identifier if a marker has a place in
its script and no comment statement opens between the header and the end of the body. -/
theorem SourceFile.Markable.of_unmarked {file : SourceFile} (guid : Guid)
    (placeable : Marker.hasPlace file.content = true)
    (unmarked : Marker.find? file.content = none)
    (quiet : ∀ script ∈ Script.ofText? file.content.normalize,
      Remark.OpensNowhere file.content.normalize script.before.length
        (script.prologue ++ script.body.written).length)
    (unicode : file.encoding ≠ .windows1252) : file.Markable guid.braced where
  placeable := placeable
  plain := Marker.not_shadowed_of_find? unmarked
  whole := Marker.isSome_ofText?_ensure (Guid.parse?_braced guid) placeable quiet
  back := fun other => absurd other unicode

/-- A file that can be marked carries the identifier when the marked text is written over it. -/
theorem SourceFile.Markable.carries {disk next : Disk} {file : SourceFile} {guid : Guid}
    {definition : Definition} (markable : file.Markable guid.braced)
    (loaded : load disk file.path = .ok file)
    (defined : Definition.ofText? file.content = some definition)
    (written : disk.write file.path
      (file.encoding.encode (Marker.ensure file.content guid.braced)) = .ok next) :
    next.Carries file.path definition.kind guid := by
  obtain ⟨marked, found, kind, named⟩ := Marker.exists_ofText?_ensure (Guid.parse?_braced guid)
    defined markable.placeable markable.plain markable.whole
  obtain ⟨bytes, read, shape⟩ := load_eq_ok_iff.mp loaded
  obtain ⟨place, leads, readable, _⟩ := Disk.read_eq_ok_iff.mp read
  obtain ⟨_, same, files⟩ := Disk.of_write leads written
  have there := files place
  rw [if_pos rfl] at there
  have again := Disk.read_eq_ok_iff.mpr
    ⟨place, (same.place? file.path).symm.trans leads, same.failures ▸ readable, there⟩
  refine ⟨_, marked, load_eq_ok_iff.mpr ⟨_, again, rfl⟩, ?_, kind, named⟩
  have content : file.content = (SourceEncoding.decode bytes).1 := by rw [shape]
  have encoding : file.encoding = (SourceEncoding.decode bytes).2 := by rw [shape]
  have back := markable.back
  rw [encoding] at back ⊢
  have text := SourceEncoding.decode_encode_of_head?
    (by rw [Marker.any_head?_ensure (by decide), content]) back
  dsimp only
  rw [text, found]

namespace Run

/-- What is known of an answer when its file has been handed over: the file carries the identifier,
and the entry under it is of the kind of the definition. -/
structure Holds (run : Run MemoryCatalog) (answer : SourceFile × Definition × Upsert)
    (guid : Guid) : Prop where
  id : answer.2.2.id = guid.braced
  carries : run.disk.Carries answer.1.path answer.2.1.kind guid
  entry : ∃ entry : Entry, run.catalog.find? guid.text = some entry ∧ entry.kind = answer.2.1.kind

variable {run next last : Run MemoryCatalog} {file : SourceFile} {files : List SourceFile}
  {definition : Definition} {answer : SourceFile × Definition × Upsert} {guid : Guid}
  {answers : List (SourceFile × Definition × Upsert)}

/-- A file that carries the identifier of an earlier answer is answered with that again. -/
theorem Holds.settled (holds : run.Holds answer guid)
    (sound : MemoryCatalog.Sound run.catalog.table)
    (loaded : SourceFile.load run.disk file.path = .ok file)
    (same : run.disk.place? answer.1.path = run.disk.place? file.path)
    (defined : Definition.ofText? file.content = some definition) :
    (definition.marker.any fun marker =>
      Guid.same marker (run.catalog.upsert definition).1.id) = true := by
  obtain ⟨other, otherDefinition, loadedToo, definedToo, kind, named⟩ := holds.carries
  rw [Disk.content_eq_of_load loaded loadedToo same, defined] at definedToo
  cases definedToo
  obtain ⟨entry, found, ofKind⟩ := holds.entry
  have agrees : ∀ there, run.catalog.find? guid.text = some there →
      there.kind = definition.kind := by
    intro there foundToo
    rw [found] at foundToo
    cases foundToo
    exact ofKind.trans kind.symm
  rw [MemoryCatalog.upsert_of_guid? sound named agrees]
  exact Definition.any_same_iff.mpr named

/-- The answer of a run is that of the catalog in memory. -/
theorem upsert_eq {catalog : MemoryCatalog} {upsert : Upsert}
    (answer : Catalog.upsert run.catalog definition = (.ok upsert, catalog)) :
    (run.catalog.upsert definition).1 = upsert ∧ (run.catalog.upsert definition).2 = catalog := by
  cases answer
  exact ⟨rfl, rfl⟩

/-- The catalog when a file has been handed over. -/
theorem HandsOver.catalog_eq {dryRun : Bool} (step : HandsOver dryRun run file next) :
    next.catalog = run.catalog.afterAll (definitionsOf [file]) := by
  cases step with
  | skipped undefined =>
      rw [definitionsOf_of_undefined undefined]
      rfl
  | kept defined answered _ | previewed _ defined answered _ _
  | marked _ defined answered _ _ _ =>
      obtain ⟨_, rfl⟩ := upsert_eq answered
      rw [definitionsOf_of_defined defined]
      rfl

/-- **No later file takes an identifier away.** -/
theorem Holds.step (holds : run.Holds answer guid)
    (step : HandsOver false run file next) (sound : MemoryCatalog.Sound run.catalog.table)
    (new : run.catalog.AllNew ((definitionsOf [file]).map .upsert))
    (loaded : SourceFile.load run.disk file.path = .ok file) : next.Holds answer guid := by
  obtain ⟨entry, found, ofKind⟩ := holds.entry
  obtain ⟨renewed, foundToo, kind⟩ := MemoryCatalog.find?_afterAll sound new found
  refine ⟨holds.id, ?_, renewed, step.catalog_eq ▸ foundToo, kind.trans ofKind⟩
  cases step with
  | skipped => exact holds.carries
  | kept => exact holds.carries
  | previewed dry => cases dry
  | marked _ defined answered unsettled _ written =>
      have elsewhere : run.disk.place? answer.1.path ≠ run.disk.place? file.path := by
        intro same
        have settled := holds.settled sound loaded same defined
        rw [(upsert_eq answered).1, unsettled] at settled
        cases settled
      obtain ⟨place, leads, _⟩ := exists_place?_of_load loaded
      obtain ⟨_, shape, files⟩ := Disk.of_write leads written
      apply holds.carries.of_sameShape shape
      intro other there
      have different : other ≠ place := by
        rintro rfl
        exact elsewhere (there.trans leads.symm)
      rw [files, if_neg different]

/-- **A file carries the answer to it** once it has been handed over, if it did before or can be
marked. -/
theorem HandsOver.exists_holds (step : HandsOver false run file next)
    (sound : MemoryCatalog.Sound run.catalog.table)
    (loaded : SourceFile.load run.disk file.path = .ok file)
    (defined : Definition.ofText? file.content = some definition)
    (marks : (definition.marker.any fun marker =>
        Guid.same marker (run.catalog.upsert definition).1.id) = true ∨
      file.Markable (run.catalog.upsert definition).1.id) :
    ∃ guid, next.Holds (file, definition, (run.catalog.upsert definition).1) guid := by
  obtain ⟨guid, id, found⟩ := MemoryCatalog.exists_find?_upsert sound definition
  have after : next.catalog = (run.catalog.upsert definition).2 := by
    rw [step.catalog_eq, definitionsOf_of_defined defined]
    rfl
  rw [id] at marks
  refine ⟨guid, id, ?_, _, after ▸ found, rfl⟩
  cases step with
  | skipped undefined =>
      rw [undefined] at defined
      cases defined
  | previewed dry => cases dry
  | kept definedToo answered settled =>
      rw [defined] at definedToo
      cases definedToo
      obtain ⟨rfl, _⟩ := upsert_eq answered
      rw [id] at settled
      refine ⟨file, definition, loaded, defined, rfl, ?_⟩
      rcases settled with carried | unchanged
      · exact Definition.any_same_iff.mp carried
      · rcases marks with carried | markable
        · exact Definition.any_same_iff.mp carried
        · obtain ⟨marked, foundToo, _, named⟩ := Marker.exists_ofText?_ensure
            (Guid.parse?_braced guid) defined markable.placeable markable.plain markable.whole
          rw [unchanged, defined] at foundToo
          cases foundToo
          exact named
  | marked _ definedToo answered unsettled _ written =>
      rw [defined] at definedToo
      cases definedToo
      obtain ⟨rfl, _⟩ := upsert_eq answered
      rw [id] at unsettled written
      rcases marks with carried | markable
      · rw [unsettled] at carried
        cases carried
      · exact markable.carries loaded defined written

/-- Nothing but the file that is handed over changes. -/
theorem HandsOver.frame {place : List Text} (step : HandsOver false run file next)
    (leads : run.disk.place? file.path = some place) :
    run.disk.SameShape next.disk ∧
      ∀ other, other ≠ place → next.disk.fileAt other = run.disk.fileAt other := by
  cases step with
  | skipped | kept => exact ⟨.refl run.disk, fun _ _ => rfl⟩
  | previewed dry => cases dry
  | marked _ _ _ _ _ written =>
      obtain ⟨_, shape, files⟩ := Disk.of_write leads written
      exact ⟨shape, fun other different => by rw [files, if_neg different]⟩

/-- The file of an answer carries the identifier, or can be marked with it. -/
def Marks (answer : SourceFile × Definition × Upsert) : Prop :=
  (answer.2.1.marker.any fun marker => Guid.same marker answer.2.2.id) = true ∨
    answer.1.Markable answer.2.2.id

/-- The answer to a file holds once the file has been handed over. -/
theorem HandsOver.holds (step : HandsOver false run file next)
    (sound : MemoryCatalog.Sound run.catalog.table)
    (loaded : SourceFile.load run.disk file.path = .ok file)
    (marks : ∀ answer ∈ answersTo run.catalog [file], Marks answer) :
    ∀ answer ∈ answersTo run.catalog [file], ∃ guid, next.Holds answer guid := by
  intro answer member
  cases defined : Definition.ofText? file.content with
  | none => simp [answersTo, defined] at member
  | some definition =>
      have alone : answersTo run.catalog [file] =
          [(file, definition, (run.catalog.upsert definition).1)] := by
        simp [answersTo, defined]
      rw [alone, List.mem_singleton] at member
      rw [alone, List.forall_mem_singleton] at marks
      subst member
      exact step.exists_holds sound loaded defined marks

/-- A file at another place is loaded as before. -/
theorem HandsOver.load_eq {other : SourceFile} (step : HandsOver false run file next)
    (loaded : SourceFile.load run.disk file.path = .ok file)
    (apart : run.disk.place? file.path ≠ run.disk.place? other.path) :
    SourceFile.load next.disk other.path = SourceFile.load run.disk other.path := by
  obtain ⟨place, leads, _⟩ := exists_place?_of_load loaded
  obtain ⟨shape, elsewhere⟩ := step.frame leads
  have kept : next.disk.read other.path = run.disk.read other.path := by
    apply shape.read_eq
    intro there found
    apply elsewhere
    rintro rfl
    exact apart (leads.trans found.symm)
  rw [SourceFile.load, SourceFile.load, kept]

/-- **All files.** -/
theorem holds_of_foldlM (done : files.foldlM (handOver false) run = .ok last)
    (sound : MemoryCatalog.Sound run.catalog.table)
    (new : run.catalog.AllNew ((definitionsOf files).map .upsert))
    (loaded : ∀ file ∈ files, SourceFile.load run.disk file.path = .ok file)
    (apart : files.Pairwise fun first second =>
      run.disk.place? first.path ≠ run.disk.place? second.path)
    (marks : ∀ answer ∈ answersTo run.catalog files, Marks answer)
    (held : ∀ answer ∈ answers, ∃ guid, run.Holds answer guid) :
    ∀ answer ∈ answers ++ answersTo run.catalog files, ∃ guid, last.Holds answer guid := by
  induction files generalizing run answers with
  | nil =>
      cases done
      rw [answersTo, List.append_nil]
      exact held
  | cons file files ih =>
      rw [List.foldlM_cons] at done
      obtain ⟨middle, first, later⟩ := exists_of_bind_eq_ok done
      have step := handsOver_of_handOver first
      have split : definitionsOf (file :: files) = definitionsOf [file] ++ definitionsOf files :=
        definitionsOf_append [file] files
      have answered : answersTo run.catalog (file :: files) =
          answersTo run.catalog [file] ++ answersTo middle.catalog files := by
        rw [step.catalog_eq]
        exact answersTo_append run.catalog [file] files
      rw [split, MemoryCatalog.allNew_append, ← step.catalog_eq] at new
      rw [answered, List.forall_mem_append] at marks
      rw [List.forall_mem_cons] at loaded
      rw [List.pairwise_cons] at apart
      obtain ⟨place, leads, _⟩ := exists_place?_of_load loaded.1
      obtain ⟨shape, _⟩ := step.frame leads
      rw [answered, ← List.append_assoc]
      -- What was held before and what the first file adds is held when the others follow.
      refine ih later (step.catalog_eq ▸ sound.afterAll _) new.2 ?_ ?_ marks.2 ?_
      · intro other member
        rw [step.load_eq loaded.1 (apart.1 other member)]
        exact loaded.2 other member
      · refine apart.2.imp fun {one other} different => ?_
        rw [← shape.place?, ← shape.place?]
        exact different
      · rw [List.forall_mem_append]
        refine ⟨fun answer member => ?_, step.holds sound loaded.1 marks.1⟩
        obtain ⟨guid, holds⟩ := held answer member
        exact ⟨guid, holds.step step sound new.1 loaded.1⟩

/-- **All folders.** -/
theorem holds_of_visitFolders {options : SyncOptions} {pattern : Pattern} {folders : List Text}
    (wet : options.dryRun = false)
    (visited : folders.foldlM (visitFolder options pattern) run = .ok last)
    (sound : MemoryCatalog.Sound run.catalog.table) (named : run.disk.root.Named)
    (new : run.catalog.AllNew
      ((definitionsOf (run.filesOf options pattern folders)).map .upsert))
    (marks : ∀ answer ∈ answersTo run.catalog (run.filesOf options pattern folders), Marks answer)
    (held : ∀ answer ∈ answers, ∃ guid, run.Holds answer guid) :
    ∀ answer ∈ answers ++ answersTo run.catalog (run.filesOf options pattern folders),
      ∃ guid, last.Holds answer guid := by
  induction folders generalizing run answers with
  | nil =>
      cases visited
      rw [filesOf, answersTo, List.append_nil]
      exact held
  | cons folder folders ih =>
      rw [List.foldlM_cons] at visited
      obtain ⟨middle, first, later⟩ := exists_of_bind_eq_ok visited
      have handing := foldlM_of_visitFolder first
      have catalog := (handed_of_foldlM sound handing).catalog
      have loaded := loadFolder_of_visitFolder first
      have files : run.filesOf options pattern (folder :: folders) =
          run.filesIn options pattern folder ++ middle.filesOf options pattern folders := by
        rw [filesOf, first]
      rw [files, definitionsOf_append, MemoryCatalog.allNew_append, ← catalog] at new
      rw [files, answersTo_append, ← catalog, List.forall_mem_append] at marks
      rw [files, answersTo_append, ← catalog, ← List.append_assoc]
      refine ih later (catalog ▸ sound.afterAll _)
        ((marked_of_visitFolder first).shape.named.mp named) new.2 marks.2 ?_
      rw [wet] at handing
      exact holds_of_foldlM handing sound new.1 (load_of_mem_loadFolder loaded)
        (Disk.pairwise_place?_of_loadFolder named loaded) marks.1 held

end Run

section

variable {options : SyncOptions} {disk : Disk} {catalog : MemoryCatalog} {run : Run MemoryCatalog}

/-- **Identities last.** Suppose that a run that writes ends well, that the identifiers it makes are
new, and that every file with a definition carries the identifier it is answered with or can be
marked with that. Then the next run ends well, creates and removes no entry, and leaves the
identifiers of the catalog as they are. -/
theorem synchronize_keeps_ids (reachable : catalog.Reachable) (wet : options.dryRun = false)
    (named : disk.root.Named) (done : synchronize options disk catalog = .ok run)
    (new : catalog.AllNew
      ((Run.definitionsOf (scannedFiles options disk catalog)).map .upsert))
    (marks : ∀ answer ∈ Run.answersTo catalog (scannedFiles options disk catalog),
      Run.Marks answer) :
    ∃ again : Run MemoryCatalog, synchronize options run.disk run.catalog = .ok again ∧
      again.report.created = 0 ∧ again.report.removed = [] ∧
      again.catalog.ids = run.catalog.ids := by
  apply exists_again_of_carried reachable done new
  obtain ⟨pattern, visited, _, folders, swept, scanned⟩ := exists_folders_of_synchronize done
  rw [scanned] at new marks ⊢
  have held := Run.holds_of_visitFolders wet folders reachable.sound named new marks
    fun answer member => absurd member List.not_mem_nil
  intro answer member
  obtain ⟨guid, holds⟩ := held answer (List.mem_append_right [] member)
  exact ⟨guid, holds.id, (Run.sweepAll_frame swept).1 ▸ holds.carries⟩

/-- A file without a marker gets one and keeps the identifier. -/
theorem synchronize_keeps_ids_placed :
    let options : SyncOptions := ⟨[], ["functions".toList], "*.sql".toList, false⟩
    let disk := Disk.empty.putFile ["work".toList, "functions".toList, "f.sql".toList]
      (Utf8.encode "CREATE FUNCTION f() AS $$SELECT 1$$".toList)
    let catalog := MemoryCatalog.empty Guid.numbered
    ∃ run, synchronize options disk catalog = .ok run ∧
      run.report.rewritten = ["functions/f.sql".toList] ∧
      run.catalog.ids = [(Guid.numbered 0).braced] ∧
      ∃ again, synchronize options run.disk run.catalog = .ok again ∧
        again.report.created = 0 ∧ again.catalog.ids = [(Guid.numbered 0).braced] := by
  intro options disk catalog
  have ends : ((synchronize options disk catalog).toOption.map fun run =>
      (run.report.rewritten, run.catalog.ids)) =
      some (["functions/f.sql".toList], [(Guid.numbered 0).braced]) := by decide +kernel
  obtain ⟨run, done, facts⟩ := Option.map_eq_some_iff.mp ends
  obtain ⟨rewritten, ids⟩ := Prod.mk.inj facts
  have ok := eq_ok_of_toOption done
  have plain : ∀ answer ∈ Run.answersTo catalog (scannedFiles options disk catalog),
      answer.2.2.id = (Guid.numbered 0).braced ∧ Marker.hasPlace answer.1.content = true ∧
      Marker.find? answer.1.content = none ∧
      (∀ script ∈ Script.ofText? answer.1.content.normalize,
        Remark.OpensNowhere answer.1.content.normalize script.before.length
          (script.prologue ++ script.body.written).length) ∧
      answer.1.encoding ≠ .windows1252 := by decide +kernel
  obtain ⟨again, settled, created, _, kept⟩ := synchronize_keeps_ids (.empty Guid.numbered) rfl
    (by decide +kernel) ok (by decide +kernel) fun answer member => by
      obtain ⟨id, placeable, unmarked, quiet, unicode⟩ := plain answer member
      exact Or.inr (id ▸ .of_unmarked (Guid.numbered 0) placeable unmarked quiet unicode)
  exact ⟨run, ok, rewritten, ids, again, settled, created, kept.trans ids⟩

/-- A run and the next one. -/
def twice (options : SyncOptions) (disk : Disk) (catalog : MemoryCatalog) :
    Option (Run MemoryCatalog × Run MemoryCatalog) :=
  (synchronize options disk catalog).toOption.bind fun run =>
    (synchronize options run.disk run.catalog).toOption.map fun again => (run, again)

/-- What a pair of runs ends in tells that both runs end well. -/
theorem exists_of_map_twice {α : Type} {summary : Run MemoryCatalog × Run MemoryCatalog → α}
    {value : α} (ends : (twice options disk catalog).map summary = some value) :
    ∃ run again, synchronize options disk catalog = .ok run ∧
      synchronize options run.disk run.catalog = .ok again ∧ summary (run, again) = value := by
  obtain ⟨⟨run, again⟩, both, same⟩ := Option.map_eq_some_iff.mp ends
  obtain ⟨first, done, later⟩ := Option.bind_eq_some_iff.mp both
  obtain ⟨second, doneAgain, pair⟩ := Option.map_eq_some_iff.mp later
  cases pair
  exact ⟨run, again, eq_ok_of_toOption done, eq_ok_of_toOption doneAgain, same⟩

/-- **Unplaced identifiers are forgotten.** A marker cannot be placed in a body between single
quotes. The next run does not find the identifier again: it makes a new entry and removes the old
one. Other identifiers are lost in the same way: where a `plpgsql` body has no block to put the
marker in; where a marker with the identifier of another routine stands above it; where a file in
Windows-1252 reads as UTF-8 with the new marker, which makes a marker of a comment; and where the
new marker completes a comment statement in the body, so that the file is no script any more. -/
theorem synchronize_forgets_quoted :
    let options : SyncOptions := ⟨[], ["functions".toList], "*.sql".toList, false⟩
    let disk (content : Bytes) :=
      Disk.empty.putFile ["work".toList, "functions".toList, "f.sql".toList] content
    let beside (content : Bytes) :=
      (disk content).putFile ["work".toList, "functions".toList, "g.sql".toList]
        (Utf8.encode "CREATE FUNCTION g() AS $$SELECT 1$$".toList)
    let catalog := MemoryCatalog.empty Guid.numbered
    let marker := "-- @GUID \x7b11111111-1111-1111-8111-111111111111\x7d\n".toList
    let misread := "-- @GUID\u00c2\u00a0\x7b11111111-1111-1111-8111-111111111111\x7d\n".toList
    let procedure := Definition.ofScript { Marker.emptyBlock with before := marker }
    let quoted := disk (Utf8.encode
      "CREATE FUNCTION f() RETURNS int AS 'SELECT 1' LANGUAGE sql;".toList)
    let libraries := [
      (disk (Utf8.encode "CREATE FUNCTION f() AS $$DECLARE n int;$$ LANGUAGE plpgsql;".toList),
        catalog),
      (disk (Utf8.encode (marker ++ "CREATE FUNCTION f() AS $$SELECT 1$$".toList)),
        (catalog.upsert procedure).2),
      (disk (Windows1252.encode (misread ++
        "CREATE FUNCTION f() AS $$\n-- @GUID \x7b\u00e9\x7d\n$$ LANGUAGE sql;".toList)), catalog),
      (beside (Utf8.encode ("CREATE FUNCTION f() AS $$ COMMENT ON FUNCTION f IS $a$\n".toList ++
        "-- @GUID \x7b $b$; \x7d\n$a$; $$;".toList)), catalog)]
    (∃ run again, catalog.Reachable ∧ synchronize options quoted catalog = .ok run ∧
      (Run.definitionsOf (scannedFiles options quoted catalog)).map Definition.guid? = [none] ∧
      synchronize options run.disk run.catalog = .ok again ∧
      run.catalog.ids = [(Guid.numbered 0).braced] ∧ again.report.created = 1 ∧
      again.report.removed = [(Guid.numbered 0).braced] ∧
      again.catalog.ids = [(Guid.numbered 1).braced]) ∧
    ∀ library ∈ libraries, library.2.Reachable ∧
      library.2.AllNew ((Run.definitionsOf (scannedFiles options library.1 library.2)).map
        .upsert) ∧
      ∃ run again, synchronize options library.1 library.2 = .ok run ∧
        synchronize options run.disk run.catalog = .ok again ∧
        again.report.removed = [(Guid.numbered 0).braced] := by
  intro options disk beside catalog marker misread procedure quoted libraries
  have forgotten : (twice options quoted catalog).map (fun (run, again) =>
      (run.catalog.ids, again.report.created, again.report.removed, again.catalog.ids)) =
      some ([(Guid.numbered 0).braced], 1, [(Guid.numbered 0).braced],
        [(Guid.numbered 1).braced]) := by decide +kernel
  obtain ⟨run, again, done, doneAgain, same⟩ := exists_of_map_twice forgotten
  simp only [Prod.mk.injEq] at same
  have fresh : catalog.Reachable := .empty Guid.numbered
  have reachable : ∀ library ∈ libraries, library.2.Reachable := by
    simp only [libraries, List.forall_mem_cons]
    exact ⟨fresh, fresh.upsert procedure, fresh, fresh,
      fun library member => absurd member List.not_mem_nil⟩
  have new : ∀ library ∈ libraries, library.2.AllNew
      ((Run.definitionsOf (scannedFiles options library.1 library.2)).map .upsert) := by
    decide +kernel
  have removed : ∀ library ∈ libraries,
      (twice options library.1 library.2).map (fun (_, again) => again.report.removed) =
        some [(Guid.numbered 0).braced] := by decide +kernel
  exact ⟨⟨run, again, fresh, done, by decide +kernel, doneAgain, same⟩, fun library member =>
    ⟨reachable library member, new library member, exists_of_map_twice (removed library member)⟩⟩

end

end RoutineScripts
