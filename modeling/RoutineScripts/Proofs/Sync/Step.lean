import RoutineScripts.Proofs.Files.WriteBack

/-!
# One file of a run

Whatever the catalog, handing over a file does one of four things (`Run.HandsOver`): a file without
a definition is skipped, and of the others some stay as they are, some are marked on the disk and
some only in the report of a dry run. Everything a run does to files is seen from these cases
(`Run.handsOver_of_handOver`).
-/

namespace RoutineScripts

/-- Counting an outcome rewrites no file. -/
theorem Report.rewritten_count (report : Report) (outcome : Outcome) :
    (report.count outcome).rewritten = report.rewritten := by
  cases outcome <;> rfl

namespace Run

variable {σ : Type}

/-- The run when the answer of the catalog to one more file has been counted. -/
def answered (run : Run σ) (upsert : Upsert) (catalog : σ) : Run σ :=
  { run with
    catalog
    report := { run.report with scanned := run.report.scanned + 1 }.count upsert.outcome
    seen := run.seen ++ (Guid.parse? upsert.id).toList }

/-- The run with one more file reported as rewritten. -/
def reported (run : Run σ) (path : Text) : Run σ :=
  { run with report := { run.report with rewritten := run.report.rewritten ++ [path] } }

/-- An answer rewrites no file. -/
theorem rewritten_answered (run : Run σ) (upsert : Upsert) (catalog : σ) :
    (run.answered upsert catalog).report.rewritten = run.report.rewritten :=
  Report.rewritten_count _ _

variable [Catalog σ]

/-- **One file.** What handing it over does when nothing fails. -/
inductive HandsOver (dryRun : Bool) (run : Run σ) (file : SourceFile) : Run σ → Prop
  /-- It has no definition. -/
  | skipped (undefined : Definition.ofText? file.content = none) :
      HandsOver dryRun run file
        { run with
          report :=
            { run.report with
              scanned := run.report.scanned + 1
              skipped := run.report.skipped ++ [file.path] } }
  /-- It carries the identifier that is answered, or cannot be given it. -/
  | kept {definition : Definition} {upsert : Upsert} {catalog : σ}
      (defined : Definition.ofText? file.content = some definition)
      (answer : Catalog.upsert run.catalog definition = (.ok upsert, catalog))
      (settled : (definition.marker.any fun marker => Guid.same marker upsert.id) = true ∨
        Marker.ensure file.content upsert.id = file.content) :
      HandsOver dryRun run file (run.answered upsert catalog)
  /-- It would be marked. -/
  | previewed {definition : Definition} {upsert : Upsert} {catalog : σ} (dry : dryRun = true)
      (defined : Definition.ofText? file.content = some definition)
      (answer : Catalog.upsert run.catalog definition = (.ok upsert, catalog))
      (unsettled : (definition.marker.any fun marker => Guid.same marker upsert.id) = false)
      (changes : Marker.ensure file.content upsert.id ≠ file.content) :
      HandsOver dryRun run file ((run.answered upsert catalog).reported file.path)
  /-- It is marked. -/
  | marked {definition : Definition} {upsert : Upsert} {catalog : σ} {disk : Disk}
      (wet : dryRun = false)
      (defined : Definition.ofText? file.content = some definition)
      (answer : Catalog.upsert run.catalog definition = (.ok upsert, catalog))
      (unsettled : (definition.marker.any fun marker => Guid.same marker upsert.id) = false)
      (changes : Marker.ensure file.content upsert.id ≠ file.content)
      (written : run.disk.write file.path
        (file.encoding.encode (Marker.ensure file.content upsert.id)) = .ok disk) :
      HandsOver dryRun run file { (run.answered upsert catalog).reported file.path with disk }

/-- A file that is handed over without an error is so in one of these ways. -/
theorem handsOver_of_handOver {dryRun : Bool} {run next : Run σ} {file : SourceFile}
    (handed : handOver dryRun run file = .ok next) : HandsOver dryRun run file next := by
  unfold handOver at handed
  simp only at handed
  split at handed
  case h_1 undefined =>
    cases handed
    exact .skipped undefined
  case h_2 definition defined =>
    split at handed
    case h_1 => cases handed
    case h_2 upsert catalog answer =>
      unfold placeMarker at handed
      simp only at handed
      split at handed
      case isTrue carried =>
        cases handed
        exact .kept defined answer (Or.inl carried)
      case isFalse other =>
        rw [Bool.not_eq_true] at other
        split at handed
        case isTrue same =>
          cases handed
          exact .kept defined answer (Or.inr same)
        case isFalse changes =>
          split at handed
          case isTrue dry =>
            cases handed
            exact .previewed dry defined answer other changes
          case isFalse wet =>
            split at handed
            case h_1 => cases handed
            case h_2 disk saved =>
              cases handed
              exact .marked (by simpa using wet) defined answer other changes
                (SourceFile.write_of_save saved)

end Run

end RoutineScripts
