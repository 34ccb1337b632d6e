import RoutineScripts.Proofs.Encoding.Utf8
import RoutineScripts.Proofs.Marker.Resolution
import RoutineScripts.Proofs.Sync.Stability

/-!
# Rewritten files

A file that a run reports as rewritten holds, when the run is over, the text that was written for
one of the answers of the catalog (`Run.Rewrote`): each step writes what it reports, and writing
over a file changes no other one. Files in UTF-8 read back as they were written. So a rewritten file
resolves to the identifier that was answered, unless another one shadows it
(`ensure_and_rewritten_resolve`).
-/

namespace RoutineScripts

namespace SourceEncoding

/-- A file in Windows-1252 reads back as the text that is written to it. There is no condition on
other files: UTF-8 is always read back. -/
def ReadsBack (encoding : SourceEncoding) (text : Text) : Prop :=
  encoding = windows1252 → (decode (encoding.encode text)).1 = text

instance (encoding : SourceEncoding) (text : Text) : Decidable (encoding.ReadsBack text) :=
  inferInstanceAs (Decidable (encoding = windows1252 → _ = _))

/-- What is read back is what was written, or lost a byte order mark in front. -/
theorem ReadsBack.decode_encode {encoding : SourceEncoding} {text : Text}
    (back : encoding.ReadsBack text) :
    (decode (encoding.encode text)).1 = text ∨
      encoding = utf8 false ∧ text = byteOrderMark :: (decode (encoding.encode text)).1 := by
  cases encoding with
  | windows1252 => exact Or.inl (back rfl)
  | utf8 mark =>
      cases mark with
      | true => simp [encode, decode, Utf8.decode?_encode]
      | false =>
          rw [encode, decode, Utf8.decode?_encode]
          cases text with
          | nil => exact Or.inl rfl
          | cons c rest =>
              by_cases isMark : c = byteOrderMark
              · subst isMark
                exact Or.inr ⟨rfl, rfl⟩
              · exact Or.inl (by simp only [if_neg isMark])

/-- What is read back carries the same marker. -/
theorem ReadsBack.find?_decode {encoding : SourceEncoding} {text : Text}
    (back : encoding.ReadsBack text) :
    Marker.find? (decode (encoding.encode text)).1 = Marker.find? text := by
  rcases back.decode_encode with same | ⟨_, shape⟩
  · rw [same]
  · -- No marker starts with the lost mark.
    generalize (decode (encoding.encode text)).1 = rest at shape ⊢
    rw [shape, Marker.find?_cons, Marker.read?_of_ne (by decide), Option.none_or]

end SourceEncoding

namespace Run

variable {σ : Type} [Catalog σ]

/-- The files with a definition, each with the answer of the catalog to it, in order. The first
failure ends them. -/
def upserts : σ → List SourceFile → List (SourceFile × Upsert)
  | _, [] => []
  | catalog, file :: files =>
      match Definition.ofText? file.content with
      | none => upserts catalog files
      | some definition =>
          match Catalog.upsert catalog definition with
          | (.error _, _) => []
          | (.ok upsert, next) => (file, upsert) :: upserts next files

section Upserts

variable {dryRun : Bool} {run next : Run σ} {file : SourceFile} {files : List SourceFile}

/-- The answer for a file with a definition comes first. -/
theorem upserts_of_answer {definition : Definition} {upsert : Upsert} {catalog after : σ}
    (defined : Definition.ofText? file.content = some definition)
    (answer : Catalog.upsert catalog definition = (.ok upsert, after)) :
    upserts catalog (file :: files) = (file, upsert) :: upserts after files := by
  simp only [upserts, defined, answer]

/-- One file is answered, and the rest by the catalog after it. -/
theorem HandsOver.upserts_cons (step : HandsOver dryRun run file next) (files : List SourceFile) :
    upserts run.catalog (file :: files) =
      upserts run.catalog [file] ++ upserts next.catalog files := by
  cases step with
  | skipped undefined => simp only [upserts, undefined, List.nil_append]
  | kept defined answer _ | previewed _ defined answer _ _ | marked _ defined answer _ _ _ =>
      rw [upserts_of_answer defined answer, upserts_of_answer defined answer]
      rfl

/-- The answers for two lists of files are those of each. -/
theorem upserts_append {others : List SourceFile}
    (done : files.foldlM (handOver dryRun) run = .ok next) :
    upserts run.catalog (files ++ others) =
      upserts run.catalog files ++ upserts next.catalog others := by
  induction files generalizing run with
  | nil =>
      cases done
      rfl
  | cons file files ih =>
      rw [List.foldlM_cons] at done
      obtain ⟨middle, first, later⟩ := exists_of_bind_eq_ok done
      have step := handsOver_of_handOver first
      rw [List.cons_append, step.upserts_cons (files ++ others), step.upserts_cons files, ih later,
        List.append_assoc]

end Upserts

/-- The file at a path can be read and holds the text that was written for one of the answers, which
changed the file. -/
def Rewrote (disk : Disk) (answers : List (SourceFile × Upsert)) (path : Text) : Prop :=
  ∃ file upsert place, (file, upsert) ∈ answers ∧
    Marker.ensure file.content upsert.id ≠ file.content ∧
    disk.place? path = some place ∧ disk.place? file.path = some place ∧
    disk.failures.reading place = none ∧ disk.fileAt place =
      some (file.encoding.encode (Marker.ensure file.content upsert.id))

section Writes

variable {options : SyncOptions} {pattern : Pattern} {run next last : Run σ} {file : SourceFile}
  {files : List SourceFile} {answers : List (SourceFile × Upsert)} {place : List Text}

/-- **One file.** It is written in its place or not at all, and what is reported as rewritten was
written. -/
theorem HandsOver.rewrote (step : HandsOver false run file next)
    (placed : run.disk.place? file.path = some place)
    (readable : run.disk.failures.reading place = none)
    (listed : ∀ answer ∈ upserts run.catalog [file], answer ∈ answers)
    (held : ∀ path ∈ run.report.rewritten, Rewrote run.disk answers path) :
    run.disk.SameShape next.disk ∧
      ∀ path ∈ next.report.rewritten, Rewrote next.disk answers path := by
  cases step with
  | skipped => exact ⟨.refl _, held⟩
  | kept => exact ⟨.refl _, by rwa [rewritten_answered]⟩
  | previewed dry => cases dry
  | @marked definition upsert catalog disk _ defined answer _ changes written =>
      obtain ⟨_, shape, files⟩ := Disk.of_write placed written
      have own : (file, upsert) ∈ answers :=
        listed _ (by rw [upserts_of_answer defined answer]; exact List.mem_cons_self)
      refine ⟨shape, ?_⟩
      have here (path : Text) (found : run.disk.place? path = some place) :
          Rewrote disk answers path := by
        refine ⟨file, upsert, place, own, changes, (shape.place? path).symm.trans found,
          (shape.place? file.path).symm.trans placed, shape.failures ▸ readable, ?_⟩
        rw [files, if_pos rfl]
      intro path member
      have cases : path ∈ run.report.rewritten ∨ path = file.path := by
        simpa [reported, rewritten_answered] using member
      rcases cases with earlier | rfl
      · obtain ⟨writer, answered, there, listed, changed, found, leads, allowed, content⟩ :=
          held path earlier
        by_cases same : there = place
        · exact here path (same ▸ found)
        · refine ⟨writer, answered, there, listed, changed, (shape.place? path).symm.trans found,
            (shape.place? writer.path).symm.trans leads, shape.failures ▸ allowed, ?_⟩
          rw [files, if_neg same]
          exact content
      · exact here file.path placed

/-- **All files.** -/
theorem rewrote_of_foldlM (done : files.foldlM (handOver false) run = .ok last)
    (placed : ∀ file ∈ files, ∃ place, run.disk.place? file.path = some place ∧
      run.disk.failures.reading place = none)
    (listed : ∀ answer ∈ upserts run.catalog files, answer ∈ answers)
    (held : ∀ path ∈ run.report.rewritten, Rewrote run.disk answers path) :
    ∀ path ∈ last.report.rewritten, Rewrote last.disk answers path := by
  induction files generalizing run with
  | nil =>
      cases done
      exact held
  | cons file files ih =>
      rw [List.foldlM_cons] at done
      obtain ⟨middle, first, later⟩ := exists_of_bind_eq_ok done
      have step := handsOver_of_handOver first
      rw [step.upserts_cons] at listed
      obtain ⟨⟨place, here, readable⟩, elsewhere⟩ := List.forall_mem_cons.mp placed
      obtain ⟨shape, rewrote⟩ := step.rewrote here readable
        (fun answer member => listed answer (List.mem_append_left _ member)) held
      refine ih later (fun other member => ?_)
        (fun answer member => listed answer (List.mem_append_right _ member)) rewrote
      rw [← shape.place?, ← shape.failures]
      exact elsewhere other member

/-- A file that was loaded stands at a place that can be read. -/
theorem exists_place?_of_load {disk : Disk} {path : Text}
    (loaded : SourceFile.load disk path = .ok file) :
    ∃ place, disk.place? path = some place ∧ disk.failures.reading place = none := by
  obtain ⟨bytes, read, _⟩ := SourceFile.load_eq_ok_iff.mp loaded
  obtain ⟨place, found, readable, _⟩ := Disk.read_eq_ok_iff.mp read
  exact ⟨place, found, readable⟩

/-- **All folders.** -/
theorem rewrote_of_visitFolders {folders : List Text} (wet : options.dryRun = false)
    (visited : folders.foldlM (visitFolder options pattern) run = .ok last)
    (listed : ∀ answer ∈ upserts run.catalog (run.filesOf options pattern folders),
      answer ∈ answers)
    (held : ∀ path ∈ run.report.rewritten, Rewrote run.disk answers path) :
    ∀ path ∈ last.report.rewritten, Rewrote last.disk answers path := by
  induction folders generalizing run with
  | nil =>
      cases visited
      exact held
  | cons folder folders ih =>
      rw [List.foldlM_cons] at visited
      obtain ⟨middle, first, later⟩ := exists_of_bind_eq_ok visited
      have handed := foldlM_of_visitFolder first
      rw [filesOf, first] at listed
      simp only [upserts_append handed] at listed
      rw [wet] at handed
      have loaded := load_of_mem_loadFolder (loadFolder_of_visitFolder first)
      refine ih later (fun answer member => listed answer (List.mem_append_right _ member)) ?_
      exact rewrote_of_foldlM handed (fun file member => exists_place?_of_load (loaded file member))
        (fun answer member => listed answer (List.mem_append_left _ member)) held

end Writes

end Run

/-- A rewritten file holds what was written for an answer of the run. -/
theorem rewrote_of_synchronize {σ : Type} [Catalog σ] {options : SyncOptions} {disk : Disk}
    {catalog : σ} {run : Run σ} (done : synchronize options disk catalog = .ok run)
    (wet : options.dryRun = false) :
    ∀ path ∈ run.report.rewritten,
      Run.Rewrote run.disk (Run.upserts catalog (scannedFiles options disk catalog)) path := by
  obtain ⟨pattern, visited, _, folders, swept, scanned⟩ := exists_folders_of_synchronize done
  obtain ⟨sameDisk, sameRewritten⟩ := Run.sweepAll_frame swept
  rw [sameDisk, sameRewritten, scanned]
  exact Run.rewrote_of_visitFolders wet folders (fun answer member => member)
    fun path member => absurd member List.not_mem_nil

/-- What was written for an answer resolves to its identifier, unless another one shadows it. -/
theorem Run.Rewrote.exists_load {disk : Disk} {answers : List (SourceFile × Upsert)} {path : Text}
    (rewrote : Run.Rewrote disk answers path) :
    ∃ file upsert again, (file, upsert) ∈ answers ∧ disk.place? file.path = disk.place? path ∧
      SourceFile.load disk path = .ok again ∧
      (file.encoding.ReadsBack (Marker.ensure file.content upsert.id) →
        Marker.ResolvesUnlessShadowed again.content file.content upsert.id) := by
  obtain ⟨file, upsert, place, listed, changes, found, same, readable, content⟩ := rewrote
  have read := Disk.read_eq_ok_iff.mpr ⟨place, found, readable, content⟩
  refine ⟨file, upsert, _, listed, same.trans found.symm,
    SourceFile.load_eq_ok_iff.mpr ⟨_, read, rfl⟩, fun back => ?_⟩
  obtain ⟨marker, first, resolves⟩ := Marker.resolvesUnlessShadowed_ensure changes
  exact ⟨marker, back.find?_decode.trans first, resolves⟩

/-- **Rewritten scripts resolve.** A text that marking changes resolves to the identifier it was
marked with, unless a marker with another identifier stands above the edit. When a run that writes
ends well, every file that it reports as rewritten can be read again, and what is read resolves in
the same way to the identifier that the catalog answered for the file, provided that a file in
Windows-1252 reads back as it was written. -/
theorem ensure_and_rewritten_resolve :
    (∀ text id : Text, Marker.ensure text id ≠ text →
      Marker.ResolvesUnlessShadowed (Marker.ensure text id) text id) ∧
    ∀ (σ : Type) [Catalog σ] (options : SyncOptions) (disk : Disk) (catalog : σ) (run : Run σ),
      synchronize options disk catalog = .ok run → options.dryRun = false →
      ∀ path ∈ run.report.rewritten, ∃ file upsert again,
        (file, upsert) ∈ Run.upserts catalog (scannedFiles options disk catalog) ∧
        run.disk.place? file.path = run.disk.place? path ∧
        SourceFile.load run.disk path = .ok again ∧
        (file.encoding.ReadsBack (Marker.ensure file.content upsert.id) →
          Marker.ResolvesUnlessShadowed again.content file.content upsert.id) :=
  ⟨fun _ _ changes => Marker.resolvesUnlessShadowed_ensure changes,
    fun _ _ _ _ _ _ done wet path member =>
      (rewrote_of_synchronize done wet path member).exists_load⟩

/-- A new script, and a run over one file in UTF-8 and one in Windows-1252. -/
theorem ensure_and_rewritten_resolve_placed :
    let id := "9968C379-A8C4-4D5A-9F23-4F79E7C3B5E9".toList
    let text := "CREATE FUNCTION f() AS $$\nSELECT 1;\n$$ LANGUAGE sql;".toList
    let options : SyncOptions := ⟨[], ["functions".toList], "*.sql".toList, false⟩
    let disk := (Disk.empty.putFile ["work".toList, "functions".toList, "f.sql".toList]
      (Utf8.encode text)).putFile ["work".toList, "functions".toList, "g.sql".toList]
      (Windows1252.encode "CREATE FUNCTION g() AS $$\n-- \u00e9\n$$ LANGUAGE sql;".toList)
    let catalog := MemoryCatalog.empty Guid.numbered
    Marker.ResolvesUnlessShadowed (Marker.ensure text id) text id ∧
      ∃ run, synchronize options disk catalog = .ok run ∧
        run.report.rewritten = ["functions/f.sql".toList, "functions/g.sql".toList] ∧
        ∀ path ∈ run.report.rewritten, ∃ file upsert again,
          (file, upsert) ∈ Run.upserts catalog (scannedFiles options disk catalog) ∧
          SourceFile.load run.disk path = .ok again ∧
          Marker.ResolvesUnlessShadowed again.content file.content upsert.id := by
  intro id text options disk catalog
  have ends : ((synchronize options disk catalog).toOption.map fun run => run.report.rewritten) =
      some ["functions/f.sql".toList, "functions/g.sql".toList] := by decide +kernel
  obtain ⟨run, done, rewritten⟩ := Option.map_eq_some_iff.mp ends
  have ok := eq_ok_of_toOption done
  have back : ∀ answer ∈ Run.upserts catalog (scannedFiles options disk catalog),
      answer.1.encoding.ReadsBack (Marker.ensure answer.1.content answer.2.id) := by
    decide +kernel
  obtain ⟨marked, reread⟩ := ensure_and_rewritten_resolve
  refine ⟨marked text id (by decide +kernel), run, ok, rewritten, fun path member => ?_⟩
  obtain ⟨file, upsert, again, listed, _, loaded, resolves⟩ :=
    reread MemoryCatalog options disk catalog run ok rfl path member
  exact ⟨file, upsert, again, listed, loaded, resolves (back _ listed)⟩

/-- **Shadowed identifiers.** A marker in a comment above the routine is the one that the marked
text resolves to. And a file that was read as Windows-1252 reads as UTF-8 afterwards when the marker
that is replaced holds the only bytes that are none; there `C2 A0` is one space, which makes a
marker of the comment above. -/
theorem ensure_and_rewritten_not_resolve :
    let other := "11111111-1111-1111-8111-111111111111\x7d".toList
    let id := "9968C379-A8C4-4D5A-9F23-4F79E7C3B5E9".toList
    let text := "-- @GUID \x7b".toList ++ other ++
      "\nCREATE FUNCTION f() AS $$\nSELECT 1;\n$$ LANGUAGE sql;".toList
    let options : SyncOptions := ⟨[], ["functions".toList], "*.sql".toList, false⟩
    let disk := Disk.empty.putFile ["work".toList, "functions".toList, "f.sql".toList]
      (Windows1252.encode ("-- @GUID\u00c2\u00a0\x7b".toList ++ other ++
        "\nCREATE FUNCTION f() AS $$\n-- @GUID \x7b\u00e9\x7d\n$$ LANGUAGE sql;".toList))
    let catalog := MemoryCatalog.empty Guid.numbered
    ((Guid.parse? id).isSome = true ∧ Marker.ensure text id ≠ text ∧
      Marker.find? (Marker.ensure text id) = some ('{' :: other) ∧
      Guid.same ('{' :: other) id = false) ∧
    ∃ run again, synchronize options disk catalog = .ok run ∧
      run.report.rewritten = ["functions/f.sql".toList] ∧
      (Run.upserts catalog (scannedFiles options disk catalog)).map (·.2.id) =
        [(Guid.numbered 0).braced] ∧
      SourceFile.load run.disk "functions/f.sql".toList = .ok again ∧
      Marker.find? again.content = some ('{' :: other) ∧
      Guid.same ('{' :: other) (Guid.numbered 0).braced = false := by
  intro other id text options disk catalog
  have ends : ((synchronize options disk catalog).toOption.bind fun run =>
      (SourceFile.load run.disk "functions/f.sql".toList).toOption.map fun again =>
        (run.report.rewritten, Marker.find? again.content)) =
      some (["functions/f.sql".toList], some ('{' :: other)) := by decide +kernel
  obtain ⟨run, done, later⟩ := Option.bind_eq_some_iff.mp ends
  obtain ⟨again, loaded, facts⟩ := Option.map_eq_some_iff.mp later
  obtain ⟨rewritten, resolved⟩ := Prod.mk.inj facts
  exact ⟨⟨by decide, by decide +kernel, by decide +kernel, by decide⟩, run, again,
    eq_ok_of_toOption done, rewritten, by decide +kernel, eq_ok_of_toOption loaded, resolved,
    by decide +kernel⟩

end RoutineScripts
