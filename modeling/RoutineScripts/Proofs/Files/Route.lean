import RoutineScripts.Proofs.Files.Overwrite

/-!
# Paths that go on

A route is a list of names to follow in a folder. The path that leads along a route from another
path (`Path.along`) has the components of that path, without the empty one that a slash at its end
encloses (`Path.stem`), and then the names of the route (`Path.components_along`). Where the path
leads to a folder, it leads to what the folder has under the route (`Disk.locate_along`).

This holds for names that a file system gives to its entries (`Path.IsName`): a name with a slash in
it would be taken for two, and the two names of dots lead elsewhere.
-/

namespace RoutineScripts

namespace Path

/-- Every path has a first component. -/
theorem exists_components (path : Text) : ∃ part others, components path = part :: others := by
  cases path with
  | nil => exact ⟨[], [], rfl⟩
  | cons c rest =>
      rw [components]
      split
      case isTrue => exact ⟨[], components rest, rfl⟩
      case isFalse => split <;> exact ⟨_, _, rfl⟩

/-- A slash ends a component. -/
theorem components_append_slash (front back : Text) :
    components (front ++ '/' :: back) = components front ++ components back := by
  induction front with
  | nil => rfl
  | cons c front ih =>
      obtain ⟨part, others, parts⟩ := exists_components front
      rw [List.cons_append, components, components, ih, parts]
      split <;> rfl

/-- A name without slashes is its own component. -/
theorem components_of_not_mem {name : Text} (bare : '/' ∉ name) : components name = [name] := by
  induction name with
  | nil => rfl
  | cons c name ih =>
      simp only [List.mem_cons, not_or] at bare
      rw [components, if_neg (Ne.symm bare.1), ih bare.2]

/-- The components of a path without the empty one after a slash at its end. -/
def stem (path : Text) : List Text :=
  if path.getLast? = some '/' then (components path).dropLast else components path

/-- A path has no more components than its stem, or an empty one. -/
theorem components_eq_stem (path : Text) :
    components path = stem path ∨ components path = stem path ++ [[]] := by
  rw [stem]
  split
  case isTrue slash =>
    obtain ⟨front, rfl⟩ := List.getLast?_eq_some_iff.mp slash
    right
    rw [components_append_slash, components, List.dropLast_concat]
  case isFalse => exact Or.inl rfl

/-- The names that an entry of a folder may have. -/
structure IsName (name : Text) : Prop where
  nonempty : name ≠ []
  bare : '/' ∉ name
  notHere : name ≠ ['.']
  notAbove : name ≠ ['.', '.']

instance : DecidablePred IsName := fun name =>
  decidable_of_iff (name ≠ [] ∧ '/' ∉ name ∧ name ≠ ['.'] ∧ name ≠ ['.', '.'])
    ⟨fun ⟨nonempty, bare, notHere, notAbove⟩ => ⟨nonempty, bare, notHere, notAbove⟩,
      fun isName => ⟨isName.nonempty, isName.bare, isName.notHere, isName.notAbove⟩⟩

/-- The path that leads on along a route. -/
def along (path : Text) (route : List Text) : Text :=
  route.foldl join path

section Join

variable {path name : Text}

/-- A name goes after the slash that ends a path, or after one that is added. -/
theorem join_cases (nonempty : path ≠ []) (bare : '/' ∉ name) :
    (∃ front, path = front ++ ['/'] ∧ join path name = front ++ '/' :: name) ∨
      path.getLast? ≠ some '/' ∧ join path name = path ++ '/' :: name := by
  have relative : isAbsolute name = false := by
    cases name with
    | nil => rfl
    | cons c name =>
        simp only [List.mem_cons, not_or] at bare
        simpa [isAbsolute] using Ne.symm bare.1
  rw [join, relative, Bool.false_or, if_neg (by simpa using nonempty)]
  split
  case isTrue slash =>
    obtain ⟨front, rfl⟩ := List.getLast?_eq_some_iff.mp slash
    exact Or.inl ⟨front, rfl, List.append_assoc _ _ _⟩
  case isFalse other => exact Or.inr ⟨other, rfl⟩

/-- The components of a joined path are those of the path and the name. -/
theorem components_join (nonempty : path ≠ []) (bare : '/' ∉ name) :
    components (join path name) = stem path ++ [name] := by
  rcases join_cases nonempty bare with ⟨front, rfl, joined⟩ | ⟨other, joined⟩
  · rw [joined, components_append_slash, components_of_not_mem bare, stem,
      if_pos List.getLast?_concat, components_append_slash, components, List.dropLast_concat]
  · rw [joined, components_append_slash, components_of_not_mem bare, stem, if_neg other]

/-- A joined path is absolute when the path is. -/
theorem isAbsolute_join (nonempty : path ≠ []) (bare : '/' ∉ name) :
    isAbsolute (join path name) = isAbsolute path := by
  obtain ⟨c, rest, rfl⟩ := List.exists_cons_of_ne_nil nonempty
  rcases join_cases nonempty bare with ⟨front, split, joined⟩ | ⟨_, joined⟩
  · rw [joined, split]
    cases front <;> rfl
  · rw [joined]
    rfl

theorem join_ne_nil (nonempty : path ≠ []) (bare : '/' ∉ name) : join path name ≠ [] := by
  rcases join_cases nonempty bare with ⟨front, _, joined⟩ | ⟨_, joined⟩ <;> simp [joined]

/-- The stem of a joined path ends in the name. -/
theorem stem_join (nonempty : path ≠ []) (isName : IsName name) :
    stem (join path name) = stem path ++ [name] := by
  have last (front : Text) : (front ++ '/' :: name).getLast? = name.getLast? := by
    rw [List.getLast?_append, List.getLast?_cons,
      List.getLast?_eq_some_getLast isName.nonempty, Option.getD_some, Option.some_or]
  have unclosed : (join path name).getLast? ≠ some '/' := by
    intro closed
    rcases join_cases nonempty isName.bare with ⟨front, _, joined⟩ | ⟨_, joined⟩ <;>
    · rw [joined, last] at closed
      exact isName.bare (List.mem_of_getLast? closed)
  rw [stem, if_neg unclosed, components_join nonempty isName.bare]

end Join

section Along

variable {path : Text} {route : List Text}

/-- **The components of a path that goes on.** -/
theorem components_along (nonempty : path ≠ []) (names : ∀ name ∈ route, IsName name)
    (some : route ≠ []) : components (along path route) = stem path ++ route := by
  induction route generalizing path with
  | nil => exact absurd rfl some
  | cons name rest ih =>
      obtain ⟨isName, others⟩ := List.forall_mem_cons.mp names
      cases rest with
      | nil => exact components_join nonempty isName.bare
      | cons next rest =>
          have later := ih (join_ne_nil nonempty isName.bare) others (List.cons_ne_nil _ _)
          rw [stem_join nonempty isName, List.append_assoc] at later
          exact later

/-- A path along a route is absolute when the path is. -/
theorem isAbsolute_along (nonempty : path ≠ []) (names : ∀ name ∈ route, IsName name) :
    isAbsolute (along path route) = isAbsolute path := by
  induction route generalizing path with
  | nil => rfl
  | cons name rest ih =>
      obtain ⟨isName, others⟩ := List.forall_mem_cons.mp names
      exact (ih (join_ne_nil nonempty isName.bare) others).trans
        (isAbsolute_join nonempty isName.bare)

theorem along_ne_nil (nonempty : path ≠ []) (names : ∀ name ∈ route, IsName name) :
    along path route ≠ [] := by
  induction route generalizing path with
  | nil => exact nonempty
  | cons name rest ih =>
      obtain ⟨isName, others⟩ := List.forall_mem_cons.mp names
      exact ih (join_ne_nil nonempty isName.bare) others

end Along

end Path

namespace Disk

open RoutineScripts.Path

/-- Components that can be followed lead somewhere, from where the ones after them are followed. -/
theorem exists_follow_append {above : List (Text × Folder)} {node found : Node}
    {front rest place : List Text}
    (followed : follow above node (front ++ rest) = .ok (place, found)) :
    ∃ higher middle, follow higher middle rest = .ok (place, found) ∧
      ∀ other, follow above node (front ++ other) = follow higher middle other := by
  fun_induction follow above node front with
  | case1 above node => exact ⟨above, node, followed, fun _ => rfl⟩
  | case2 => cases followed
  | case3 above inner name front stays ih =>
      simp only [List.cons_append, follow, stays, if_true] at followed ⊢
      exact ih followed
  | case4 inner name front moves up ih =>
      simp only [List.cons_append, follow, moves, up, if_true] at followed ⊢
      exact ih followed
  | case5 inner name front moves up left parent higher ih =>
      simp only [List.cons_append, follow, moves, up, if_true] at followed ⊢
      exact ih followed
  | case6 above inner name front moves down node there ih =>
      simp only [List.cons_append, follow, moves, down, there] at followed ⊢
      exact ih followed
  | case7 above inner name front moves down missing =>
      simp only [List.cons_append, follow, moves, down, missing] at followed
      cases followed

/-- Names are followed one by one. -/
theorem follow_names {above : List (Text × Folder)} {inner : Folder} {route : List Text}
    {node : Node} (names : ∀ name ∈ route, IsName name) (found : inner.get? route = some node) :
    follow above (.folder inner) route = .ok ((above.map (·.1)).reverse ++ route, node) := by
  induction route generalizing above inner with
  | nil =>
      cases found
      rw [List.append_nil]
      rfl
  | cons name rest ih =>
      obtain ⟨isName, others⟩ := List.forall_mem_cons.mp names
      have moves : (name.isEmpty || name == ['.']) = false := by
        simp [isName.nonempty, isName.notHere]
      have down : (name == ['.', '.']) = false := by simp [isName.notAbove]
      rw [Folder.get?] at found
      rw [follow.eq_def]
      simp only [moves, down, Bool.false_eq_true, if_false]
      split at found
      case h_1 next isFolder =>
        rw [isFolder]
        have later := @ih ((name, inner) :: above) next others found
        simpa using later
      case h_2 content isFile =>
        split at found
        case isFalse => cases found
        case isTrue ended =>
          cases found
          obtain rfl := List.isEmpty_iff.mp ended
          simp [isFile, follow]
      case h_3 => cases found

/-- **Where a path goes on.** A path that leads to a folder leads on along its routes. -/
theorem locate_along {disk : Disk} {path : Text} {place : List Text} {inner : Folder}
    (located : disk.locate path = .ok (place, .folder inner)) {route : List Text} {node : Node}
    (names : ∀ name ∈ route, IsName name) (found : inner.get? route = some node) :
    disk.locate (along path route) = .ok (place ++ route, node) := by
  by_cases none : route = []
  · subst none
    cases found
    rw [List.append_nil]
    exact located
  · have nonempty : path ≠ [] := by
      rintro rfl
      cases located
    obtain ⟨start, routes, goesOn⟩ : ∃ start, disk.route path = start ++ components path ∧
        disk.route (along path route) = start ++ components (along path route) := by
      rw [Disk.route, Disk.route, isAbsolute_along nonempty names]
      split
      case isTrue => exact ⟨[], rfl, rfl⟩
      case isFalse => exact ⟨disk.workingDirectory, rfl, rfl⟩
    rw [locate, if_neg (by simpa using nonempty), routes] at located
    rw [locate, if_neg (by simpa using along_ne_nil nonempty names), goesOn,
      components_along nonempty names none, ← List.append_assoc]
    obtain ⟨tail, split, blank⟩ : ∃ tail, components path = stem path ++ tail ∧
        (tail = [] ∨ tail = [[]]) := by
      rcases components_eq_stem path with same | longer
      · exact ⟨[], by rw [List.append_nil, same], Or.inl rfl⟩
      · exact ⟨[[]], longer, Or.inr rfl⟩
    rw [split, ← List.append_assoc] at located
    obtain ⟨higher, middle, reached, follows⟩ := exists_follow_append located
    -- The empty component after a slash stays at the folder that the stem leads to.
    have stays : middle = .folder inner ∧ place = (higher.map (·.1)).reverse := by
      rcases blank with rfl | rfl
      · cases reached
        exact ⟨rfl, rfl⟩
      · cases middle with
        | file content => cases reached
        | folder other =>
            cases reached
            exact ⟨rfl, rfl⟩
    obtain ⟨rfl, rfl⟩ := stays
    rw [follows]
    exact follow_names names found

end Disk

end RoutineScripts
