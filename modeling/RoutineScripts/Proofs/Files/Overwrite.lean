import RoutineScripts.Files.Walk

/-!
# Writing over files

A path leads to the same place on two disks that differ in the contents of their files only
(`Disk.SameShape`), and the same files are found below it. What is read at a path is the content of
the file at its place (`Disk.read_eq_ok_iff`), and writing over a file changes that content and
nothing else (`Disk.of_write`).
-/

namespace RoutineScripts

namespace Folder

/-- The tree with all its files empty. -/
def bare : Folder → Folder
  | empty => empty
  | file name _ others => file name [] others.bare
  | folder name inner others => folder name inner.bare others.bare

end Folder

/-- The node without the contents of files. -/
def Node.bare : Node → Node
  | .file _ => .file []
  | .folder inner => .folder inner.bare

namespace Folder

/-- The content of the file that a path leads to. -/
def fileAt (tree : Folder) (place : List Text) : Option Bytes :=
  match tree.get? place with
  | some (.file content) => some content
  | _ => none

/-- An entry of a bare tree is the bare entry. -/
theorem find?_bare (tree : Folder) (wanted : Text) :
    tree.bare.find? wanted = (tree.find? wanted).map Node.bare := by
  induction tree with
  | empty => rfl
  | file name content others ih | folder name inner others _ ih =>
      rw [bare, find?, find?, ih]
      split <;> rfl

/-- A bare tree has the same files. -/
theorem files_bare (tree : Folder) (path : Text) : tree.bare.files path = tree.files path := by
  induction tree generalizing path with
  | empty => rfl
  | file name content others ih => rw [bare, files, files, ih]
  | folder name inner others innerIh othersIh => rw [bare, files, files, innerIh, othersIh]

/-- A bare tree has the same folders. -/
theorem folders_bare (tree : Folder) (path : Text) (place : List Text) :
    tree.bare.folders path place = tree.folders path place := by
  induction tree generalizing path place with
  | empty => rfl
  | file name content others ih => rw [bare, folders, folders, ih]
  | folder name inner others innerIh othersIh => rw [bare, folders, folders, innerIh, othersIh]

/-- An entry is found under its own name, and the others as before. -/
theorem find?_entry (name wanted : Text) (node : Node) (others : Folder) :
    (entry name node others).find? wanted =
      if name = wanted then some node else others.find? wanted := by
  cases node <;> rfl

/-- A node is found under the name it was put, and the others as before. -/
theorem find?_put (tree : Folder) (name wanted : Text) (node : Node) :
    (tree.put name node).find? wanted = if name = wanted then some node else tree.find? wanted := by
  induction tree with
  | empty => rw [put, find?_entry]
  | file first content others ih | folder first inner others _ ih =>
      rw [put]
      split
      case isTrue same =>
        rw [find?_entry, find?]
        by_cases here : name = wanted
        · rw [if_pos here, if_pos here]
        · rw [if_neg here, if_neg here, if_neg (same ▸ here)]
      case isFalse different =>
        split
        case isTrue => rw [find?_entry]
        case isFalse =>
          rw [find?, find?, ih]
          by_cases here : name = wanted
          · rw [if_pos here, if_pos here, if_neg fun same => different (here.trans same.symm)]
          · rw [if_neg here, if_neg here]

/-- A tree with one more entry is emptied entry by entry. -/
theorem bare_entry (name : Text) (node : Node) (others : Folder) :
    (entry name node others).bare = entry name node.bare others.bare := by
  cases node <;> rfl

/-- An entry that is found has one of the names. -/
theorem mem_names_of_find? {tree : Folder} {wanted : Text} {node : Node}
    (found : tree.find? wanted = some node) : wanted ∈ tree.names := by
  induction tree with
  | empty => cases found
  | file name content others ih | folder name inner others _ ih =>
      rw [find?] at found
      split at found
      case isTrue same => exact List.mem_cons.mpr (Or.inl same.symm)
      case isFalse => exact List.mem_cons_of_mem _ (ih found)

/-- What stands under a name in an ordered folder is replaced in its place. -/
theorem bare_put {tree : Folder} {name : Text} {node old : Node} (ordered : tree.Ordered)
    (found : tree.find? name = some old) (same : node.bare = old.bare) :
    (tree.put name node).bare = tree.bare := by
  have ahead {first : Text} {others : Folder}
      (before : ∀ other ∈ others.names, first.precedes other)
      (later : others.find? name = some old) : ¬ name.precedes first = true := by
    intro ahead
    have loop := Text.precedes_trans ahead (before name (mem_names_of_find? later))
    rw [Text.precedes_irrefl] at loop
    cases loop
  induction tree with
  | empty => cases found
  | file first content others ih =>
      rw [find?] at found
      rw [put]
      split at found
      case isTrue here =>
        cases found
        rw [if_pos here.symm, bare_entry, same, here]
        rfl
      case isFalse different =>
        rw [if_neg (Ne.symm different), if_neg (ahead ordered.1 found), bare, bare,
          ih ordered.2 found]
  | folder first inner others _ ih =>
      rw [find?] at found
      rw [put]
      split at found
      case isTrue here =>
        cases found
        rw [if_pos here.symm, bare_entry, same, here]
        rfl
      case isFalse different =>
        rw [if_neg (Ne.symm different), if_neg (ahead ordered.1 found), bare, bare,
          ih ordered.2.2 found]

theorem fileAt_cons (tree : Folder) (name : Text) (rest : List Text) :
    tree.fileAt (name :: rest) =
      match tree.find? name with
      | some (.folder inner) => inner.fileAt rest
      | some (.file content) => if rest.isEmpty then some content else none
      | none => none := by
  rw [fileAt, get?]
  cases tree.find? name with
  | none => rfl
  | some node =>
      cases node with
      | folder inner => rfl
      | file content => cases rest <;> rfl

/-- **Writing over a file in a tree.** The tree keeps its shape, and no other file changes. -/
theorem insert_file {tree : Folder} {place : List Text} {old : Bytes} (content : Bytes)
    (ordered : tree.Ordered) (found : tree.fileAt place = some old) :
    (tree.insert (.file content) place).bare = tree.bare ∧
      ∀ other, (tree.insert (.file content) place).fileAt other =
        if other = place then some content else tree.fileAt other := by
  induction place generalizing tree with
  | nil => cases found
  | cons name rest ih =>
      rw [fileAt_cons] at found
      split at found
      case h_3 => cases found
      case h_2 previous isFile =>
        split at found
        case isFalse => cases found
        case isTrue ended =>
          obtain rfl := List.isEmpty_iff.mp ended
          refine ⟨bare_put ordered isFile rfl, fun other => ?_⟩
          cases other with
          | nil => rfl
          | cons first others =>
              rw [insert, fileAt_cons, fileAt_cons, find?_put]
              by_cases here : name = first
              · subst here
                rw [if_pos rfl, isFile]
                cases others <;> simp
              · rw [if_neg here, if_neg fun same => here (List.cons.inj same).1.symm]
      case h_1 inner isFolder =>
        obtain ⟨next, others, rfl⟩ : ∃ next others, rest = next :: others := by
          cases rest with
          | nil => cases found
          | cons next others => exact ⟨next, others, rfl⟩
        obtain ⟨shape, files⟩ := ih (nodeOrdered_of_find? ordered isFolder) found
        have inserted : tree.insert (.file content) (name :: next :: others) =
            tree.put name (.folder (inner.insert (.file content) (next :: others))) := by
          simp only [insert, isFolder]
        rw [inserted]
        refine ⟨bare_put ordered isFolder (congrArg Node.folder shape), fun other => ?_⟩
        cases other with
        | nil => rfl
        | cons first rest =>
            rw [fileAt_cons, fileAt_cons, find?_put]
            by_cases here : name = first
            · subst here
              rw [if_pos rfl, isFolder]
              simp only [files, List.cons.injEq, true_and]
            · rw [if_neg here, if_neg fun same => here (List.cons.inj same).1.symm]

/-- A path of names is followed one part after the other. -/
theorem get?_append {tree inner : Folder} {front : List Text}
    (found : tree.get? front = some (.folder inner)) (rest : List Text) :
    tree.get? (front ++ rest) = inner.get? rest := by
  induction front generalizing tree with
  | nil =>
      cases found
      rfl
  | cons name front ih =>
      rw [get?] at found
      split at found
      case h_1 middle isFolder =>
        rw [List.cons_append, get?, isFolder]
        exact ih found
      case h_2 content isFile =>
        split at found <;> cases found
      case h_3 => cases found

end Folder

namespace Disk

/-- `above` are folders that lead from the root to `node`, each with the name of the next, last one
first. -/
def Leads (root : Folder) : List (Text × Folder) → Node → Prop
  | [], node => node = .folder root
  | (name, parent) :: above, node =>
      parent.find? name = some node ∧ Leads root above (.folder parent)

/-- The folders that lead to a node name a path to it. -/
theorem get?_of_leads {root : Folder} {above : List (Text × Folder)} {node : Node}
    (leads : Leads root above node) : root.get? (above.map (·.1)).reverse = some node := by
  induction above generalizing node with
  | nil =>
      cases leads
      rfl
  | cons step above ih =>
      obtain ⟨name, parent⟩ := step
      rw [List.map_cons, List.reverse_cons, Folder.get?_append (ih leads.2), Folder.get?, leads.1]
      cases node <;> rfl

/-- What is reached by following components is what the names of its place lead to. -/
theorem get?_of_follow {root : Folder} {above : List (Text × Folder)} {node found : Node}
    {route place : List Text} (leads : Leads root above node)
    (followed : follow above node route = .ok (place, found)) : root.get? place = some found := by
  fun_induction follow above node route with
  | case1 above node =>
      cases followed
      exact get?_of_leads leads
  | case2 => cases followed
  | case3 above inner name rest _ ih => exact ih leads followed
  | case4 inner name rest _ _ ih => exact ih leads followed
  | case5 inner name rest _ _ left parent higher ih => exact ih leads.2 followed
  | case6 above inner name rest _ _ node isThere ih => exact ih ⟨isThere, leads⟩ followed
  | case7 => cases followed

/-- Following components does not depend on what is in the files. -/
theorem follow_bare (above : List (Text × Folder)) (node : Node) (route : List Text) :
    follow (above.map fun step => (step.1, step.2.bare)) node.bare route =
      (follow above node route).map fun found => (found.1, found.2.bare) := by
  fun_induction follow above node route with
  | case1 above node => simp [follow, Except.map]
  | case2 => rfl
  | case3 above inner name rest stays ih =>
      rw [Node.bare, follow.eq_def]
      simp only [stays, if_true]
      exact ih
  | case4 inner name rest moves up ih =>
      rw [List.map_nil, Node.bare, follow, if_neg moves, if_pos up]
      exact ih
  | case5 inner name rest moves up left parent higher ih =>
      rw [List.map_cons, Node.bare, follow, if_neg moves, if_pos up]
      exact ih
  | case6 above inner name rest moves down node isThere ih =>
      rw [Node.bare, follow.eq_def]
      simp only [moves, down, Bool.false_eq_true, if_false, Folder.find?_bare, isThere,
        Option.map_some]
      exact ih
  | case7 above inner name rest moves down missing =>
      rw [Node.bare, follow.eq_def]
      simp only [moves, down, Bool.false_eq_true, if_false, Folder.find?_bare, missing,
        Option.map_none]
      rfl

/-- The disks differ in the contents of their files only. The system refuses the same operations. -/
structure SameShape (disk other : Disk) : Prop where
  root : disk.root.bare = other.root.bare
  workingDirectory : disk.workingDirectory = other.workingDirectory
  failures : disk.failures = other.failures

namespace SameShape

variable {disk other third : Disk}

theorem refl (disk : Disk) : SameShape disk disk := ⟨rfl, rfl, rfl⟩

theorem trans (first : SameShape disk other) (second : SameShape other third) :
    SameShape disk third :=
  ⟨first.root.trans second.root, first.workingDirectory.trans second.workingDirectory,
    first.failures.trans second.failures⟩

/-- A path leads nowhere on both disks, or to a file or a folder at the same place. -/
theorem locate_cases (same : SameShape disk other) (path : Text) :
    (∃ fault, disk.locate path = .error fault ∧ other.locate path = .error fault) ∨
      (∃ place content otherContent, disk.locate path = .ok (place, .file content) ∧
        other.locate path = .ok (place, .file otherContent)) ∨
      ∃ place inner otherInner, disk.locate path = .ok (place, .folder inner) ∧
        other.locate path = .ok (place, .folder otherInner) ∧ inner.bare = otherInner.bare := by
  have routes : disk.route path = other.route path := by
    rw [route, route, same.workingDirectory]
  have located : (disk.locate path).map (fun found => (found.1, found.2.bare)) =
      (other.locate path).map fun found => (found.1, found.2.bare) := by
    rw [locate, locate, routes]
    split
    case isTrue => rfl
    case isFalse =>
      have first := follow_bare [] (.folder disk.root) (other.route path)
      have second := follow_bare [] (.folder other.root) (other.route path)
      simp only [Node.bare, List.map_nil, same.root] at first second
      exact first.symm.trans second
  generalize disk.locate path = first at located ⊢
  generalize other.locate path = second at located ⊢
  rcases first with fault | ⟨place, content | inner⟩ <;>
    rcases second with otherFault | ⟨otherPlace, otherContent | otherInner⟩ <;>
    simp only [Except.map, Node.bare, Except.error.injEq, Except.ok.injEq, Prod.mk.injEq,
      Node.folder.injEq, reduceCtorEq, and_false, and_true] at located
  · exact Or.inl ⟨fault, rfl, by rw [located]⟩
  · exact Or.inr (Or.inl ⟨place, content, otherContent, rfl, by rw [located]⟩)
  · exact Or.inr (Or.inr ⟨place, inner, otherInner, rfl, by rw [located.1], located.2⟩)

end SameShape

/-- The place of the file that a path leads to. -/
def place? (disk : Disk) (path : Text) : Option (List Text) :=
  match disk.locate path with
  | .ok (place, .file _) => some place
  | _ => none

/-- The content of the file at a place. -/
def fileAt (disk : Disk) (place : List Text) : Option Bytes :=
  disk.root.fileAt place

/-- What a path leads to is what is at its place. -/
theorem get?_of_locate {disk : Disk} {path : Text} {place : List Text} {node : Node}
    (located : disk.locate path = .ok (place, node)) : disk.root.get? place = some node := by
  rw [locate] at located
  split at located
  case isTrue => cases located
  case isFalse =>
    have leads : Leads disk.root [] (.folder disk.root) := rfl
    exact get?_of_follow leads located

/-- **Reading.** A path is read when it leads to a file and the system does not refuse it, and the
result is the content of the file at its place. -/
theorem read_eq_ok_iff {disk : Disk} {path : Text} {content : Bytes} :
    disk.read path = .ok content ↔
      ∃ place, disk.place? path = some place ∧ disk.failures.reading place = none ∧
        disk.fileAt place = some content := by
  rw [read, place?]
  cases located : disk.locate path with
  | error fault => simp
  | ok found =>
      obtain ⟨place, node⟩ := found
      have there := get?_of_locate located
      cases node with
      | folder inner => simp
      | file old =>
          have file : disk.fileAt place = some old := by rw [fileAt, Folder.fileAt, there]
          cases allowed : disk.failures.reading place with
          | some fault => simp [allowed]
          | none => simp [allowed, file]

/-- A place of a file has a content. -/
theorem exists_fileAt {disk : Disk} {path : Text} {place : List Text}
    (found : disk.place? path = some place) : ∃ content, disk.fileAt place = some content := by
  rw [place?] at found
  split at found
  case h_1 located =>
    cases found
    exact ⟨_, by rw [fileAt, Folder.fileAt, get?_of_locate located]⟩
  case h_2 => cases found

/-- The place of a file is what its path leads to. -/
theorem target_of_place? {disk : Disk} {path : Text} {place : List Text}
    (found : disk.place? path = some place) : disk.target path = .ok place := by
  rw [place?] at found
  rw [target]
  split at found
  case h_1 located =>
    cases found
    rw [located]
  case h_2 => cases found

/-- A file that is written over keeps the shape of the disk, and no other file changes. -/
theorem putFile_of_place? {disk : Disk} {path : Text} {place : List Text}
    (found : disk.place? path = some place) (content : Bytes) :
    SameShape disk (disk.putFile place content) ∧
      ∀ other, (disk.putFile place content).fileAt other =
        if other = place then some content else disk.fileAt other := by
  obtain ⟨old, there⟩ := exists_fileAt found
  obtain ⟨shape, files⟩ := Folder.insert_file content disk.ordered there
  exact ⟨⟨shape.symm, rfl, rfl⟩, files⟩

/-- **Writing over a file.** The system does not refuse it, the disk keeps its shape, and no other
file changes. -/
theorem of_write {disk next : Disk} {path : Text} {place : List Text} {content : Bytes}
    (found : disk.place? path = some place) (written : disk.write path content = .ok next) :
    disk.failures.writing place = none ∧ SameShape disk next ∧
      ∀ other, next.fileAt other = if other = place then some content else disk.fileAt other := by
  rw [write, target_of_place? found] at written
  simp only at written
  split at written
  case h_1 allowed =>
    cases written
    exact ⟨allowed, putFile_of_place? found content⟩
  case h_2 => cases written
  case h_3 => cases written

/-- A file is written over unless the system refuses it. -/
theorem exists_write {disk : Disk} {path : Text} {place : List Text}
    (found : disk.place? path = some place) (allowed : disk.failures.writing place = none)
    (content : Bytes) : ∃ next, disk.write path content = .ok next :=
  ⟨disk.putFile place content, by rw [write, target_of_place? found]; simp only [allowed]⟩

namespace SameShape

variable {disk other : Disk}

/-- Disks of the same shape have their files in the same places. -/
theorem place? (same : SameShape disk other) (path : Text) :
    disk.place? path = other.place? path := by
  rw [Disk.place?, Disk.place?]
  rcases same.locate_cases path with ⟨fault, first, second⟩ |
    ⟨place, content, otherContent, first, second⟩ | ⟨place, inner, otherInner, first, second, _⟩
  all_goals rw [first, second]

/-- Disks of the same shape have the same folders. -/
theorem isFolder (same : SameShape disk other) (path : Text) :
    disk.isFolder path = other.isFolder path := by
  rw [Disk.isFolder, Disk.isFolder, same.failures]
  rcases same.locate_cases path with ⟨fault, first, second⟩ |
    ⟨place, content, otherContent, first, second⟩ | ⟨place, inner, otherInner, first, second, _⟩
  all_goals rw [first, second]

/-- The same folder of a walk cannot be listed. -/
theorem unlisted? (same : SameShape disk other) {path : Text} {place : List Text}
    {inner otherInner : Folder} (bare : inner.bare = otherInner.bare) :
    disk.unlisted? path place inner = other.unlisted? path place otherInner := by
  rw [Disk.unlisted?, Disk.unlisted?, same.failures, ← Folder.folders_bare inner, bare,
    Folder.folders_bare]

/-- The same files are found below a path. -/
theorem collect (same : SameShape disk other) (path : Text) (pattern : Pattern) :
    disk.collect path pattern = other.collect path pattern := by
  rw [Disk.collect, Disk.collect, same.failures]
  rcases same.locate_cases path with ⟨fault, first, second⟩ |
    ⟨place, content, otherContent, first, second⟩ |
    ⟨place, inner, otherInner, first, second, bare⟩
  · rw [first, second]
  · rw [first, second]
    dsimp only
    cases other.failures.inspecting place <;> rfl
  · rw [first, second]
    dsimp only
    cases other.failures.inspecting place with
    | some fault => rfl
    | none => simp only [same.unlisted? bare, ← Folder.files_bare inner, bare, Folder.files_bare]

/-- What is read at a path depends on the file at its place only. -/
theorem read_eq (same : SameShape disk other) {path : Text}
    (agrees : ∀ place, disk.place? path = some place → other.fileAt place = disk.fileAt place) :
    other.read path = disk.read path := by
  rw [Disk.place?] at agrees
  rw [Disk.read, Disk.read, same.failures]
  rcases same.locate_cases path with ⟨fault, first, second⟩ |
    ⟨place, content, otherContent, first, second⟩ | ⟨place, inner, otherInner, first, second, _⟩
  · rw [first, second]
  · rw [first] at agrees
    have files := agrees place rfl
    rw [Disk.fileAt, Folder.fileAt, get?_of_locate second, Disk.fileAt, Folder.fileAt,
      get?_of_locate first] at files
    rw [first, second, Option.some.inj files]
  · rw [first, second]

end SameShape

end Disk

end RoutineScripts
