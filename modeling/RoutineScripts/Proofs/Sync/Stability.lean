import RoutineScripts.Proofs.Catalog.Fresh
import RoutineScripts.Proofs.Files.Overwrite
import RoutineScripts.Proofs.Sync.Kept

/-!
# Identities that last

A run writes over files that have a definition and touches no other file (`Disk.Marked`), so the
next run reads the same paths. If every file that was answered with an identifier carries it when
the run is over, the next run creates and removes nothing (`exists_again_of_carried`).
-/

namespace RoutineScripts

section Traversal

variable {ε α β : Type} {action : α → Except ε β} {list : List α}

/-- What a traversal that ends well returns are the results for the elements of the list. -/
theorem mem_of_mapM {results : List β} (done : list.mapM action = .ok results) :
    (∀ result ∈ results, ∃ element ∈ list, action element = .ok result) ∧
      ∀ element ∈ list, ∃ result ∈ results, action element = .ok result := by
  induction list generalizing results with
  | nil =>
      cases done
      exact ⟨fun result member => absurd member List.not_mem_nil,
        fun element member => absurd member List.not_mem_nil⟩
  | cons first rest ih =>
      rw [List.mapM_cons] at done
      obtain ⟨head, one, others⟩ := exists_of_bind_eq_ok done
      obtain ⟨tail, later, last⟩ := exists_of_bind_eq_ok others
      cases last
      obtain ⟨backward, forward⟩ := ih later
      refine ⟨List.forall_mem_cons.mpr ⟨⟨first, List.mem_cons_self, one⟩, ?_⟩,
        List.forall_mem_cons.mpr ⟨⟨head, List.mem_cons_self, one⟩, ?_⟩⟩
      · intro result member
        obtain ⟨element, inside, same⟩ := backward result member
        exact ⟨element, List.mem_cons_of_mem _ inside, same⟩
      · intro element member
        obtain ⟨result, inside, same⟩ := forward element member
        exact ⟨result, List.mem_cons_of_mem _ inside, same⟩

/-- A traversal ends well if the action does for every element. -/
theorem exists_mapM (each : ∀ element ∈ list, ∃ result, action element = .ok result) :
    ∃ results, list.mapM action = .ok results := by
  induction list with
  | nil => exact ⟨[], rfl⟩
  | cons first rest ih =>
      rw [List.forall_mem_cons] at each
      obtain ⟨head, one⟩ := each.1
      obtain ⟨tail, later⟩ := ih each.2
      exact ⟨head :: tail, by rw [List.mapM_cons, one, later]; rfl⟩

end Traversal

/-- A file is loaded when it can be read. -/
theorem SourceFile.load_eq_ok_iff {disk : Disk} {path : Text} {file : SourceFile} :
    load disk path = .ok file ↔
      ∃ bytes, disk.read path = .ok bytes ∧
        file = ⟨path, (SourceEncoding.decode bytes).1, (SourceEncoding.decode bytes).2⟩ := by
  rw [load]
  cases disk.read path with
  | error fault => simp
  | ok bytes => simp [eq_comm]

namespace Disk

variable {disk next last : Disk}

/-- From `disk` to `next`, no file was made or moved, and files without a definition have not
changed. -/
structure Marked (disk next : Disk) : Prop where
  shape : SameShape disk next
  undefined : ∀ place bytes, disk.fileAt place = some bytes →
    Definition.ofText? (SourceEncoding.decode bytes).1 = none → next.fileAt place = some bytes

theorem Marked.refl (disk : Disk) : Marked disk disk :=
  ⟨.refl disk, fun _ _ found _ => found⟩

theorem Marked.trans (first : Marked disk next) (second : Marked next last) : Marked disk last :=
  ⟨first.shape.trans second.shape, fun place bytes found undefined =>
    second.undefined place bytes (first.undefined place bytes found undefined) undefined⟩

/-- A file that can be loaded can be loaded later, and without a definition it has none then. -/
theorem Marked.exists_load (marked : Marked disk next) {path : Text} {file : SourceFile}
    (loaded : SourceFile.load disk path = .ok file) :
    ∃ later, SourceFile.load next path = .ok later ∧
      (Definition.ofText? file.content = none → Definition.ofText? later.content = none) := by
  obtain ⟨bytes, read, rfl⟩ := SourceFile.load_eq_ok_iff.mp loaded
  obtain ⟨place, found, readable, there⟩ := read_eq_ok_iff.mp read
  have same := marked.shape.place? path
  rw [found] at same
  rw [marked.shape.failures] at readable
  obtain ⟨content, thereLater⟩ := exists_fileAt same.symm
  refine ⟨_, SourceFile.load_eq_ok_iff.mpr
    ⟨content, read_eq_ok_iff.mpr ⟨place, same.symm, readable, thereLater⟩, rfl⟩,
    fun undefined => ?_⟩
  have kept := marked.undefined place bytes there undefined
  rw [thereLater] at kept
  cases kept
  exact undefined

/-- Writing over a file with a definition marks the disk. -/
theorem Marked.write (marked : Marked disk next) {file : SourceFile} {definition : Definition}
    {bytes : Bytes} (loaded : SourceFile.load disk file.path = .ok file)
    (defined : Definition.ofText? file.content = some definition)
    (written : next.write file.path bytes = .ok last) : Marked disk last := by
  obtain ⟨old, read, shape⟩ := SourceFile.load_eq_ok_iff.mp loaded
  obtain ⟨place, found, _, there⟩ := read_eq_ok_iff.mp read
  have same := marked.shape.place? file.path
  rw [found] at same
  obtain ⟨_, keeps, files⟩ := of_write same.symm written
  refine ⟨marked.shape.trans keeps, fun otherPlace content isThere undefined => ?_⟩
  have elsewhere : otherPlace ≠ place := by
    rintro rfl
    rw [there] at isThere
    cases isThere
    rw [shape] at defined
    rw [undefined] at defined
    cases defined
  rw [files, if_neg elsewhere]
  exact marked.undefined otherPlace content isThere undefined

end Disk

namespace Run

section Writes

variable {σ : Type} [Catalog σ] {options : SyncOptions} {pattern : Pattern} {dryRun : Bool}
  {run next last : Run σ}

/-- A file that is handed over stays as it is or is written over. -/
theorem disk_of_handOver {file : SourceFile} (handed : handOver dryRun run file = .ok next) :
    next.disk = run.disk ∨
      ∃ definition bytes, Definition.ofText? file.content = some definition ∧
        run.disk.write file.path bytes = .ok next.disk := by
  cases handsOver_of_handOver handed with
  | skipped => exact Or.inl rfl
  | kept => exact Or.inl rfl
  | previewed => exact Or.inl rfl
  | marked _ defined _ _ _ written => exact Or.inr ⟨_, _, defined, written⟩

/-- Files that were loaded together and are handed over one after the other mark the disk. -/
theorem marked_of_foldlM {disk : Disk} {files : List SourceFile}
    (loaded : ∀ file ∈ files, SourceFile.load disk file.path = .ok file)
    (marked : disk.Marked run.disk)
    (done : files.foldlM (handOver dryRun) run = .ok last) : disk.Marked last.disk := by
  induction files generalizing run with
  | nil =>
      cases done
      exact marked
  | cons file files ih =>
      rw [List.forall_mem_cons] at loaded
      rw [List.foldlM_cons] at done
      obtain ⟨middle, first, later⟩ := exists_of_bind_eq_ok done
      refine ih loaded.2 ?_ later
      rcases disk_of_handOver first with same | ⟨definition, bytes, defined, written⟩
      · rw [same]
        exact marked
      · exact marked.write loaded.1 defined written

/-- What is loaded from a folder are the files at its paths. -/
theorem load_of_mem_loadFolder {disk : Disk} {folder : Text} {files : List SourceFile}
    (loaded : disk.loadFolder options pattern folder = .ok files) :
    ∀ file ∈ files, SourceFile.load disk file.path = .ok file := by
  unfold Disk.loadFolder at loaded
  simp only at loaded
  split at loaded
  case isFalse =>
    cases loaded
    exact fun file member => absurd member List.not_mem_nil
  case isTrue =>
    split at loaded
    case h_1 => cases loaded
    case h_2 paths _ =>
      intro file member
      obtain ⟨path, _, one⟩ := (mem_of_mapM loaded).1 file member
      obtain ⟨bytes, _, rfl⟩ := SourceFile.load_eq_ok_iff.mp one
      exact one

/-- Visiting a folder only marks files. -/
theorem marked_of_visitFolder {folder : Text}
    (visited : run.visitFolder options pattern folder = .ok next) : run.disk.Marked next.disk :=
  marked_of_foldlM (load_of_mem_loadFolder (loadFolder_of_visitFolder visited)) (.refl run.disk)
    (foldlM_of_visitFolder visited)

/-- Visiting folders only marks files. -/
theorem marked_of_visitFolders {folders : List Text}
    (visited : folders.foldlM (visitFolder options pattern) run = .ok last) :
    run.disk.Marked last.disk := by
  induction folders generalizing run with
  | nil =>
      cases visited
      exact .refl _
  | cons folder folders ih =>
      rw [List.foldlM_cons] at visited
      obtain ⟨middle, first, later⟩ := exists_of_bind_eq_ok visited
      exact (marked_of_visitFolder first).trans (ih later)

/-- `later` are the files of the same paths as `files`, loaded from `disk`. Where a file had no
definition, the later one has none. -/
structure Reloads (disk : Disk) (files later : List SourceFile) : Prop where
  backward : ∀ again ∈ later, ∃ file ∈ files, SourceFile.load disk file.path = .ok again ∧
    (Definition.ofText? file.content = none → Definition.ofText? again.content = none)
  forward : ∀ file ∈ files, ∃ again ∈ later, SourceFile.load disk file.path = .ok again

theorem Reloads.append {disk : Disk} {files otherFiles later otherLater : List SourceFile}
    (first : Reloads disk files later) (second : Reloads disk otherFiles otherLater) :
    Reloads disk (files ++ otherFiles) (later ++ otherLater) := by
  refine ⟨fun again member => ?_, fun file member => ?_⟩
  · rcases List.mem_append.mp member with inside | inside
    · obtain ⟨file, listed, found⟩ := first.backward again inside
      exact ⟨file, List.mem_append_left _ listed, found⟩
    · obtain ⟨file, listed, found⟩ := second.backward again inside
      exact ⟨file, List.mem_append_right _ listed, found⟩
  · rcases List.mem_append.mp member with inside | inside
    · obtain ⟨again, listed, found⟩ := first.forward file inside
      exact ⟨again, List.mem_append_left _ listed, found⟩
    · obtain ⟨again, listed, found⟩ := second.forward file inside
      exact ⟨again, List.mem_append_right _ listed, found⟩

/-- A folder can be loaded again from a disk that was marked. -/
theorem exists_loadFolder {disk later : Disk} (marked : disk.Marked later) {folder : Text}
    {files : List SourceFile} (loaded : disk.loadFolder options pattern folder = .ok files) :
    ∃ again, later.loadFolder options pattern folder = .ok again ∧ Reloads later files again := by
  unfold Disk.loadFolder at loaded ⊢
  simp only at loaded ⊢
  rw [marked.shape.isFolder, marked.shape.collect] at loaded
  split at loaded
  case isFalse missing =>
    cases loaded
    rw [if_neg missing]
    exact ⟨[], rfl, fun again member => absurd member List.not_mem_nil,
      fun file member => absurd member List.not_mem_nil⟩
  case isTrue there =>
    rw [if_pos there]
    split at loaded
    case h_1 => cases loaded
    case h_2 paths _ =>
      obtain ⟨backward, forward⟩ := mem_of_mapM loaded
      obtain ⟨again, reloaded⟩ := exists_mapM fun path member => by
        obtain ⟨file, _, one⟩ := forward path member
        obtain ⟨result, loadedLater, _⟩ := marked.exists_load one
        exact ⟨result, loadedLater⟩
      refine ⟨again, reloaded, fun result member => ?_, fun file member => ?_⟩
      · obtain ⟨path, inside, one⟩ := (mem_of_mapM reloaded).1 result member
        obtain ⟨file, listed, before⟩ := forward path inside
        obtain ⟨other, otherLoaded, undefined⟩ := marked.exists_load before
        obtain rfl : other = result := by
          rw [one] at otherLoaded
          exact (Except.ok.inj otherLoaded).symm
        obtain ⟨bytes, _, rfl⟩ := SourceFile.load_eq_ok_iff.mp before
        exact ⟨_, listed, one, undefined⟩
      · obtain ⟨path, inside, one⟩ := backward file member
        obtain ⟨result, listed, loadedLater⟩ := (mem_of_mapM reloaded).2 path inside
        obtain ⟨bytes, _, rfl⟩ := SourceFile.load_eq_ok_iff.mp one
        exact ⟨result, listed, loadedLater⟩

/-- **The next run reads the same paths.** -/
theorem exists_loadFolders {disk : Disk} {folders : List Text}
    (visited : folders.foldlM (visitFolder options pattern) run = .ok last)
    (marked : last.disk.Marked disk) :
    ∃ parts, folders.mapM (disk.loadFolder options pattern) = .ok parts ∧
      Reloads disk (run.filesOf options pattern folders) parts.flatten := by
  induction folders generalizing run with
  | nil =>
      exact ⟨[], rfl, fun again member => absurd member List.not_mem_nil,
        fun file member => absurd member List.not_mem_nil⟩
  | cons folder folders ih =>
      rw [List.foldlM_cons] at visited
      obtain ⟨middle, first, later⟩ := exists_of_bind_eq_ok visited
      obtain ⟨parts, loaded, reloads⟩ := ih later
      have onwards :=
        (marked_of_visitFolder first).trans ((marked_of_visitFolders later).trans marked)
      obtain ⟨files, loadedFirst, reloadsFirst⟩ :=
        exists_loadFolder onwards (loadFolder_of_visitFolder first)
      refine ⟨files :: parts, by rw [List.mapM_cons, loadedFirst, loaded]; rfl, ?_⟩
      rw [filesOf, first, List.flatten_cons]
      exact reloadsFirst.append reloads

end Writes

/-- The files with a definition, each with the definition and the answer to it. -/
def answersTo : MemoryCatalog → List SourceFile → List (SourceFile × Definition × Upsert)
  | _, [] => []
  | catalog, file :: rest =>
      match Definition.ofText? file.content with
      | none => answersTo catalog rest
      | some definition =>
          (file, definition, (catalog.upsert definition).1) ::
            answersTo (catalog.upsert definition).2 rest

/-- The answers for two lists of files are those of each. -/
theorem answersTo_append (catalog : MemoryCatalog) (first second : List SourceFile) :
    answersTo catalog (first ++ second) =
      answersTo catalog first ++ answersTo (catalog.afterAll (definitionsOf first)) second := by
  induction first generalizing catalog with
  | nil => rfl
  | cons file first ih =>
      rw [List.cons_append, answersTo, answersTo, definitionsOf, List.filterMap_cons]
      cases Definition.ofText? file.content with
      | none => exact ih catalog
      | some definition => exact congrArg (_ :: ·) (ih _)

/-- The answers for files are those for their definitions. -/
theorem map_snd_answersTo (catalog : MemoryCatalog) (files : List SourceFile) :
    (answersTo catalog files).map Prod.snd = catalog.answers (definitionsOf files) := by
  induction files generalizing catalog with
  | nil => rfl
  | cons file files ih =>
      rw [answersTo, definitionsOf, List.filterMap_cons]
      cases Definition.ofText? file.content with
      | none => exact ih catalog
      | some definition =>
          simp only [List.map_cons, MemoryCatalog.answers]
          exact congrArg _ (ih _)

theorem mem_of_mem_answersTo {catalog : MemoryCatalog} {files : List SourceFile}
    {answer : SourceFile × Definition × Upsert} (member : answer ∈ answersTo catalog files) :
    answer.1 ∈ files := by
  induction files generalizing catalog with
  | nil => cases member
  | cons file files ih =>
      rw [answersTo] at member
      split at member
      case h_1 => exact List.mem_cons_of_mem _ (ih member)
      case h_2 =>
        rcases List.mem_cons.mp member with rfl | later
        · exact List.mem_cons_self
        · exact List.mem_cons_of_mem _ (ih later)

/-- A file with a definition gets an answer. -/
theorem exists_mem_answersTo (catalog : MemoryCatalog) {files : List SourceFile}
    {file : SourceFile} {definition : Definition} (member : file ∈ files)
    (defined : Definition.ofText? file.content = some definition) :
    ∃ upsert, (file, definition, upsert) ∈ answersTo catalog files := by
  induction files generalizing catalog with
  | nil => cases member
  | cons first files ih =>
      rw [answersTo]
      rcases List.mem_cons.mp member with rfl | later
      · rw [defined]
        exact ⟨_, List.mem_cons_self⟩
      · split
        case h_1 => exact ih catalog later
        case h_2 other _ =>
          obtain ⟨upsert, inside⟩ := ih (catalog.upsert other).2 later
          exact ⟨upsert, List.mem_cons_of_mem _ inside⟩

/-- A definition that is read later comes from a file that was answered. -/
theorem Reloads.exists_answer {disk : Disk} {files later : List SourceFile}
    (reloads : Reloads disk files later) (catalog : MemoryCatalog) {definition : Definition}
    (member : definition ∈ definitionsOf later) :
    ∃ answer ∈ answersTo catalog files, ∃ file,
      SourceFile.load disk answer.1.path = .ok file ∧
      Definition.ofText? file.content = some definition := by
  obtain ⟨again, inside, defined⟩ := List.mem_filterMap.mp member
  obtain ⟨file, listed, loaded, undefined⟩ := reloads.backward again inside
  cases before : Definition.ofText? file.content with
  | none =>
      rw [undefined before] at defined
      cases defined
  | some old =>
      obtain ⟨upsert, answer⟩ := exists_mem_answersTo catalog listed before
      exact ⟨_, answer, again, loaded, defined⟩

/-- What the file of an answer holds is read later. -/
theorem Reloads.mem_definitionsOf {disk : Disk} {files later : List SourceFile}
    (reloads : Reloads disk files later) {catalog : MemoryCatalog}
    {answer : SourceFile × Definition × Upsert} (member : answer ∈ answersTo catalog files)
    {file : SourceFile} {definition : Definition}
    (loaded : SourceFile.load disk answer.1.path = .ok file)
    (defined : Definition.ofText? file.content = some definition) :
    definition ∈ definitionsOf later := by
  obtain ⟨again, inside, loadedToo⟩ := reloads.forward answer.1 (mem_of_mem_answersTo member)
  rw [loaded] at loadedToo
  cases loadedToo
  exact List.mem_filterMap.mpr ⟨file, inside, defined⟩

end Run

/-- The file at a path holds a definition of a kind, with an identifier in its marker. -/
def Disk.Carries (disk : Disk) (path : Text) (kind : Kind) (guid : Guid) : Prop :=
  ∃ file definition, SourceFile.load disk path = .ok file ∧
    Definition.ofText? file.content = some definition ∧ definition.kind = kind ∧
    definition.guid? = some guid

section

variable {options : SyncOptions} {disk : Disk} {catalog : MemoryCatalog} {run : Run MemoryCatalog}

/-- **The catalog that a run leaves.** The entry under every identifier that was answered is of the
kind of the definition, and there are no other entries if there were answers. -/
theorem synchronize_answers (reachable : catalog.Reachable)
    (done : synchronize options disk catalog = .ok run)
    (new : catalog.AllNew
      ((Run.definitionsOf (scannedFiles options disk catalog)).map .upsert)) :
    MemoryCatalog.Sound run.catalog.table ∧
      (∀ answer ∈ Run.answersTo catalog (scannedFiles options disk catalog),
        ∀ guid : Guid, answer.2.2.id = guid.braced →
          ∃ entry : Entry, run.catalog.find? guid.text = some entry ∧
            entry.kind = answer.2.1.kind) ∧
      (Run.answersTo catalog (scannedFiles options disk catalog) ≠ [] →
        ∀ row ∈ run.catalog.table, ∃ guid : Guid, row.1 = guid.text ∧
          ∃ answer ∈ Run.answersTo catalog (scannedFiles options disk catalog),
            answer.2.2.id = guid.braced) := by
  obtain ⟨visited, handing, swept⟩ := exists_visited_of_synchronize done
  have sound := reachable.sound
  have handed := Run.handed_of_foldlM sound handing
  have answered := handed.mem_seen_iff rfl
  have listed := Run.map_snd_answersTo catalog (scannedFiles options disk catalog)
  have visitedSound : MemoryCatalog.Sound visited.catalog.table :=
    handed.catalog ▸ sound.afterAll _
  rcases Run.sweepAll_cases visitedSound swept with ⟨unseen, rfl⟩ | ⟨_, table, _⟩
  · have none : Run.answersTo catalog (scannedFiles options disk catalog) = [] := by
      have undefined : Run.definitionsOf (scannedFiles options disk catalog) = [] :=
        List.filterMap_eq_nil_iff.mpr ((handed.seen_eq_nil_iff rfl).mp unseen)
      rw [undefined] at listed
      exact List.map_eq_nil_iff.mp listed
    rw [none]
    exact ⟨visitedSound, fun answer member => absurd member List.not_mem_nil,
      fun some => absurd rfl some⟩
  · rw [handed.catalog] at table
    have kept : MemoryCatalog.Sound run.catalog.table := by
      rw [table]
      exact (sound.afterAll _).filter _
    refine ⟨kept, fun answer member guid same => ?_, fun _ row member => ?_⟩
    · have inside : answer.2 ∈ catalog.answers
          (Run.definitionsOf (scannedFiles options disk catalog)) := by
        rw [← listed]
        exact List.mem_map_of_mem member
      obtain ⟨other, entry, sameToo, found, kind⟩ :=
        MemoryCatalog.exists_entry_of_answer sound new inside
      obtain rfl : other = guid := Guid.braced_injective (sameToo.symm.trans same)
      refine ⟨entry, MemoryCatalog.find?_eq_some kept.ordered ?_, kind⟩
      rw [table, List.mem_filter, decide_eq_true_iff, Guid.mem_map_text_iff, answered]
      exact ⟨MemoryCatalog.mem_of_find? found, List.mem_map.mpr ⟨answer.2, inside, same⟩⟩
    · rw [table, List.mem_filter, decide_eq_true_iff] at member
      obtain ⟨guid, seen, keyed⟩ := List.mem_map.mp member.2
      rw [answered, ← listed] at seen
      obtain ⟨pair, inside, same⟩ := List.mem_map.mp seen
      obtain ⟨answer, origin, rfl⟩ := List.mem_map.mp inside
      exact ⟨guid, keyed.symm, answer, origin, same⟩

/-- **Carried identities last.** When every file with a definition carries the identifier it was
answered with at the end of a run, the next run ends well, creates and removes no entry, and leaves
the identifiers of the catalog as they are. -/
theorem exists_again_of_carried (reachable : catalog.Reachable)
    (done : synchronize options disk catalog = .ok run)
    (new : catalog.AllNew
      ((Run.definitionsOf (scannedFiles options disk catalog)).map .upsert))
    (carried : ∀ answer ∈ Run.answersTo catalog (scannedFiles options disk catalog),
      ∃ guid : Guid, answer.2.2.id = guid.braced ∧
        run.disk.Carries answer.1.path answer.2.1.kind guid) :
    ∃ again : Run MemoryCatalog, synchronize options run.disk run.catalog = .ok again ∧
      again.report.created = 0 ∧ again.report.removed = [] ∧
      again.catalog.ids = run.catalog.ids := by
  obtain ⟨sound, entryOf, answerOf⟩ := synchronize_answers reachable done new
  obtain ⟨pattern, visited, read, folders, swept, scanned⟩ := exists_folders_of_synchronize done
  have sameDisk := (Run.sweepAll_frame swept).1
  obtain ⟨parts, loaded, reloads⟩ := Run.exists_loadFolders folders (.refl visited.disk)
  rw [← sameDisk] at loaded reloads
  rw [scanned] at entryOf answerOf carried
  have known : ∀ definition ∈ Run.definitionsOf parts.flatten, ∃ (guid : Guid) (entry : Entry),
      definition.guid? = some guid ∧ run.catalog.find? guid.text = some entry ∧
        entry.kind = definition.kind := by
    intro definition member
    obtain ⟨answer, inside, file, one, defined⟩ := reloads.exists_answer catalog member
    obtain ⟨guid, same, other, otherDefinition, oneToo, definedToo, kind, named⟩ :=
      carried answer inside
    obtain ⟨entry, found, entryKind⟩ := entryOf answer inside guid same
    rw [one] at oneToo
    cases oneToo
    rw [defined] at definedToo
    cases definedToo
    exact ⟨guid, entry, named, found, entryKind.trans kind.symm⟩
  obtain ⟨kept, notCreated, sameIds⟩ := MemoryCatalog.kept_of_known sound known
  have covered : Run.definitionsOf parts.flatten ≠ [] →
      ∀ row ∈ (run.catalog.afterAll (Run.definitionsOf parts.flatten)).table,
        ∃ definition ∈ Run.definitionsOf parts.flatten,
          definition.guid?.map Guid.text = some row.1 := by
    intro some row member
    obtain ⟨first, read⟩ := List.exists_mem_of_ne_nil _ some
    obtain ⟨answered, nonempty, _⟩ := reloads.exists_answer catalog read
    obtain ⟨there, keyed, stored⟩ := (sound.afterAll _).inStep row member
    -- The identifier stands in the old catalog, so it was answered.
    have listed : there.braced ∈ run.catalog.ids := by
      rw [← sameIds, MemoryCatalog.ids_eq, ← stored]
      exact List.mem_map.mpr ⟨row, member, rfl⟩
    rw [MemoryCatalog.ids_eq] at listed
    obtain ⟨old, inside, sameId⟩ := List.mem_map.mp listed
    obtain ⟨guid, oldKeyed, answer, origin, same⟩ :=
      answerOf (List.ne_nil_of_mem nonempty) old inside
    obtain ⟨again, oldKey, oldStored⟩ := sound.inStep old inside
    obtain rfl : again = there := Guid.braced_injective (oldStored.symm.trans sameId)
    obtain rfl : guid = again := Guid.eq_of_text_eq (oldKeyed.symm.trans oldKey)
    obtain ⟨other, sameToo, file, definition, one, defined, _, named⟩ := carried answer origin
    obtain rfl : other = guid := Guid.braced_injective (sameToo.symm.trans same)
    exact ⟨definition, reloads.mem_definitionsOf origin one defined,
      by rw [named, Option.map_some, keyed]⟩
  obtain ⟨again, ends, _, againCatalog, _, removed, numbers⟩ :=
    synchronize_of_kept sound read loaded kept covered
  refine ⟨again, ends, ?_, removed, by rw [againCatalog, sameIds]⟩
  refine (numbers .created).trans (List.countP_eq_zero.mpr fun answer member => ?_)
  simp [notCreated answer member]

end

end RoutineScripts
