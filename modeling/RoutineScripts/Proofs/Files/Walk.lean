import RoutineScripts.Files.Walk
import RoutineScripts.Proofs.Encoding.Order
import RoutineScripts.Proofs.Files.Route

/-!
# The order of a walk

The files of a tree are at the ends of its routes (`Folder.routes`, `Folder.files_eq`). In an
ordered tree every file has one route (`Folder.mem_routes_iff`), and the routes come in the order of
their names, compared one by one and byte by byte (`Folder.increasing_routes`). A list in that order
is known by its members, so the walk depends on nothing but which files there are
(`Folder.routes_eq_of_fileAt`).

The paths that are collected are those along the routes to files whose names match, unless the
system refuses to list a folder on the way (`Disk.collect_eq`). They come in the order of their
components (`Disk.increasing_paths`).
-/

namespace RoutineScripts

namespace Path

/-- The bytes of names. -/
def bytes (names : List Text) : List Bytes :=
  names.map Utf8.encode

/-- Names in order have their bytes in order, whatever follows. -/
theorem bytes_lt_of_precedes {name other : Text} (before : name.precedes other = true)
    (rest others : List Text) : bytes (name :: rest) < bytes (other :: others) :=
  List.cons_lt_cons_iff.mpr (Or.inl (Utf8.encode_lt_iff.mpr before))

/-- Routes in order stay in order behind a common front. -/
theorem bytes_append_lt {first second : List Text} (before : bytes first < bytes second)
    (front : List Text) : bytes (front ++ first) < bytes (front ++ second) := by
  rw [bytes, bytes, List.map_append, List.map_append]
  exact List.append_left_lt before

/-- Routes in increasing order have no duplicates. -/
theorem nodup_of_increasing {list : List (List Text)}
    (increasing : list.Pairwise fun route other => bytes route < bytes other) : list.Nodup := by
  refine List.Pairwise.imp ?_ increasing
  rintro route _ before rfl
  exact List.lt_irrefl _ before

end Path

namespace Folder

open RoutineScripts.Path

/-- What a route leads to in an ordered folder is ordered. -/
theorem nodeOrdered_of_get? {tree : Folder} {route : List Text} {node : Node}
    (ordered : tree.Ordered) (found : tree.get? route = some node) : NodeOrdered node := by
  induction route generalizing tree with
  | nil =>
      cases found
      exact ordered
  | cons name rest ih =>
      rw [get?] at found
      split at found
      case h_1 inner isFolder => exact ih (nodeOrdered_of_find? ordered isFolder) found
      case h_2 =>
        split at found
        case isTrue =>
          cases found
          trivial
        case isFalse => cases found
      case h_3 => cases found

/-- A file with a content is found at its route. -/
theorem get?_of_fileAt {tree : Folder} {route : List Text} {content : Bytes}
    (found : tree.fileAt route = some content) : tree.get? route = some (.file content) := by
  rw [fileAt] at found
  split at found
  case h_1 there =>
    cases found
    exact there
  case h_2 => cases found

/-- The names that lead to the files of a tree, in the order of the walk. -/
def routes : Folder → List (List Text)
  | empty => []
  | file name _ others => [name] :: others.routes
  | folder name inner others => inner.routes.map (name :: ·) ++ others.routes

/-- The names of all entries are names that a file system gives. -/
def Named : Folder → Prop
  | empty => True
  | file name _ others => IsName name ∧ others.Named
  | folder name inner others => IsName name ∧ inner.Named ∧ others.Named

instance decidableNamed : DecidablePred Named
  | empty => inferInstanceAs (Decidable True)
  | file name _ others =>
      have := decidableNamed others
      inferInstanceAs (Decidable (IsName name ∧ others.Named))
  | folder name inner others =>
      have := decidableNamed inner
      have := decidableNamed others
      inferInstanceAs (Decidable (IsName name ∧ inner.Named ∧ others.Named))

/-- A route to a file starts with a name of the tree. -/
theorem exists_cons_of_mem_routes {tree : Folder} {route : List Text}
    (member : route ∈ tree.routes) : ∃ name rest, route = name :: rest ∧ name ∈ tree.names := by
  induction tree with
  | empty => cases member
  | file name content others ih =>
      rcases List.mem_cons.mp member with rfl | later
      · exact ⟨name, [], rfl, List.mem_cons_self⟩
      · obtain ⟨first, rest, shape, inside⟩ := ih later
        exact ⟨first, rest, shape, List.mem_cons_of_mem _ inside⟩
  | folder name inner others _ ih =>
      rcases List.mem_append.mp member with below | later
      · obtain ⟨rest, _, rfl⟩ := List.mem_map.mp below
        exact ⟨name, rest, rfl, List.mem_cons_self⟩
      · obtain ⟨first, rest, shape, inside⟩ := ih later
        exact ⟨first, rest, shape, List.mem_cons_of_mem _ inside⟩

/-- The files of a tree are at the ends of its routes. -/
theorem files_eq (tree : Folder) (path : Text) :
    tree.files path =
      tree.routes.map fun route => (along path route, route.getLast?.getD []) := by
  induction tree generalizing path with
  | empty => rfl
  | file name content others ih => rw [files, routes, List.map_cons, ih]; rfl
  | folder name inner others innerIh othersIh =>
      rw [files, routes, List.map_append, List.map_map, innerIh, othersIh]
      refine congrArg (· ++ _) (List.map_congr_left fun route member => ?_)
      obtain ⟨first, rest, rfl, _⟩ := exists_cons_of_mem_routes member
      rfl

/-- **The walk is in order.** -/
theorem increasing_routes {tree : Folder} (ordered : tree.Ordered) :
    tree.routes.Pairwise fun route other => bytes route < bytes other := by
  induction tree with
  | empty => exact List.Pairwise.nil
  | file name content others ih =>
      refine List.pairwise_cons.mpr ⟨fun other member => ?_, ih ordered.2⟩
      obtain ⟨first, rest, rfl, inside⟩ := exists_cons_of_mem_routes member
      exact bytes_lt_of_precedes (ordered.1 first inside) _ _
  | folder name inner others innerIh othersIh =>
      refine List.pairwise_append.mpr ⟨List.pairwise_map.mpr ?_, othersIh ordered.2.2, ?_⟩
      · exact (innerIh ordered.2.1).imp fun before => bytes_append_lt before [name]
      · intro route below other member
        obtain ⟨rest, _, rfl⟩ := List.mem_map.mp below
        obtain ⟨first, others, rfl, inside⟩ := exists_cons_of_mem_routes member
        exact bytes_lt_of_precedes (ordered.1 first inside) _ _

/-- No route through the entries after a name starts with that name. -/
theorem not_mem_routes {name : Text} {others : Folder}
    (before : ∀ other ∈ others.names, name.precedes other) (rest : List Text) :
    name :: rest ∉ others.routes := by
  intro member
  obtain ⟨_, _, shape, inside⟩ := exists_cons_of_mem_routes member
  have loop := before _ inside
  rw [(List.cons.inj shape).1, Text.precedes_irrefl] at loop
  cases loop

/-- No file stands at the tree itself. -/
theorem nil_not_mem_routes (tree : Folder) : [] ∉ tree.routes := by
  intro member
  obtain ⟨_, _, shape, _⟩ := exists_cons_of_mem_routes member
  cases shape

/-- **Every file is on the walk,** and nothing else. -/
theorem mem_routes_iff {tree : Folder} (ordered : tree.Ordered) {route : List Text} :
    route ∈ tree.routes ↔ (tree.fileAt route).isSome = true := by
  induction tree generalizing route with
  | empty => cases route <;> simp [routes, fileAt, get?, find?]
  | file name content others ih =>
      cases route with
      | nil => exact iff_of_false (nil_not_mem_routes _) Bool.false_ne_true
      | cons first rest =>
          rw [fileAt_cons, find?, routes, List.mem_cons]
          by_cases here : name = first
          · subst here
            rw [if_pos rfl, or_iff_left (not_mem_routes ordered.1 rest)]
            cases rest <;> simp
          · rw [if_neg here, ← fileAt_cons, ← ih ordered.2]
            exact or_iff_right fun same => here (List.cons.inj same).1.symm
  | folder name inner others innerIh othersIh =>
      cases route with
      | nil => exact iff_of_false (nil_not_mem_routes _) Bool.false_ne_true
      | cons first rest =>
          rw [fileAt_cons, find?, routes, List.mem_append]
          by_cases here : name = first
          · subst here
            rw [if_pos rfl, or_iff_left (not_mem_routes ordered.1 rest), ← innerIh ordered.2.1]
            simp
          · rw [if_neg here, ← fileAt_cons, ← othersIh ordered.2.2]
            refine or_iff_right fun below => ?_
            obtain ⟨_, _, same⟩ := List.mem_map.mp below
            exact here (List.cons.inj same).1

/-- What stands under a name after the first entry is found there. -/
theorem get?_of_mem_others {tree others : Folder} {name first : Text} {rest : List Text}
    {node : Node} (tail : ∀ wanted, tree.find? wanted =
      if name = wanted then some node else others.find? wanted)
    (before : ∀ other ∈ others.names, name.precedes other) (inside : first ∈ others.names) :
    tree.get? (first :: rest) = others.get? (first :: rest) := by
  have different : name ≠ first := by
    rintro rfl
    have loop := before name inside
    rw [Text.precedes_irrefl] at loop
    cases loop
  rw [get?, get?, tail, if_neg different]

/-- The folders of a tree are at the ends of routes through it. -/
theorem exists_route_of_mem_folders {tree : Folder} {path found : Text} {place there : List Text}
    (ordered : tree.Ordered) (member : (found, there) ∈ tree.folders path place) :
    ∃ first rest sub, there = place ++ first :: rest ∧ first ∈ tree.names ∧
      tree.get? (first :: rest) = some (.folder sub) := by
  induction tree generalizing path place with
  | empty => cases member
  | file name content others ih =>
      obtain ⟨first, rest, sub, same, inside, leads⟩ := ih ordered.2 member
      refine ⟨first, rest, sub, same, List.mem_cons_of_mem _ inside, ?_⟩
      rw [get?_of_mem_others (fun _ => rfl) ordered.1 inside, leads]
  | folder name inner others innerIh othersIh =>
      rcases List.mem_cons.mp member with here | further
      · cases here
        refine ⟨name, [], inner, rfl, List.mem_cons_self, ?_⟩
        rw [get?, find?, if_pos rfl]
        rfl
      · rcases List.mem_append.mp further with below | later
        · obtain ⟨first, rest, sub, same, _, leads⟩ := innerIh ordered.2.1 below
          refine ⟨name, first :: rest, sub, ?_, List.mem_cons_self, ?_⟩
          · rw [same, List.append_assoc, List.singleton_append]
          · rw [get?, find?, if_pos rfl]
            exact leads
        · obtain ⟨first, rest, sub, same, inside, leads⟩ := othersIh ordered.2.2 later
          refine ⟨first, rest, sub, same, List.mem_cons_of_mem _ inside, ?_⟩
          rw [get?_of_mem_others (fun _ => rfl) ordered.1 inside, leads]

/-- The names of a bare tree are those of the tree. -/
theorem named_bare (tree : Folder) : tree.bare.Named ↔ tree.Named := by
  induction tree with
  | empty => exact Iff.rfl
  | file name content others ih => exact and_congr_right fun _ => ih
  | folder name inner others innerIh othersIh =>
      exact and_congr_right fun _ => and_congr innerIh othersIh

/-- The names in a folder of a tree are names. -/
theorem Named.of_find? {tree inner : Folder} (named : tree.Named) {name : Text}
    (found : tree.find? name = some (.folder inner)) : inner.Named := by
  induction tree with
  | empty => cases found
  | file first content others ih =>
      rw [find?] at found
      split at found
      case isTrue => cases found
      case isFalse => exact ih named.2 found
  | folder first below others _ ih =>
      rw [find?] at found
      split at found
      case isTrue =>
        cases found
        exact named.2.1
      case isFalse => exact ih named.2.2 found

/-- The names in a folder at a route are names. -/
theorem Named.of_get? {tree inner : Folder} (named : tree.Named) {route : List Text}
    (found : tree.get? route = some (.folder inner)) : inner.Named := by
  induction route generalizing tree with
  | nil =>
      cases found
      exact named
  | cons name rest ih =>
      rw [get?] at found
      split at found
      case h_1 below isFolder => exact ih (named.of_find? isFolder) found
      case h_2 =>
        split at found
        case isTrue => cases found
        case isFalse => cases found
      case h_3 => cases found

/-- The names along a route to a file are names. -/
theorem Named.of_mem_routes {tree : Folder} (named : tree.Named) {route : List Text}
    (member : route ∈ tree.routes) : ∀ name ∈ route, IsName name := by
  induction tree generalizing route with
  | empty => cases member
  | file name content others ih =>
      rcases List.mem_cons.mp member with rfl | later
      · exact List.forall_mem_singleton.mpr named.1
      · exact ih named.2 later
  | folder name inner others innerIh othersIh =>
      rcases List.mem_append.mp member with below | later
      · obtain ⟨rest, inside, rfl⟩ := List.mem_map.mp below
        exact List.forall_mem_cons.mpr ⟨named.1, innerIh named.2.1 inside⟩
      · exact othersIh named.2.2 later

end Folder

namespace Disk

open RoutineScripts.Path

variable {disk : Disk} {path : Text} {place : List Text} {inner : Folder} {pattern : Pattern}

/-- The routes to the files of a folder whose names match a pattern. -/
def routesTo (pattern : Pattern) (inner : Folder) : List (List Text) :=
  inner.routes.filter fun route => pattern.accepts (route.getLast?.getD [])

/-- The system tells what is at a place and lists every folder in the folder there. -/
structure Open (disk : Disk) (place : List Text) (inner : Folder) : Prop where
  inspected : disk.failures.inspecting place = none
  listed : ∀ route sub, inner.get? route = some (.folder sub) →
    disk.failures.listing (place ++ route) = none

/-- A folder that a path leads to is ordered. -/
theorem ordered_of_locate (located : disk.locate path = .ok (place, .folder inner)) :
    inner.Ordered :=
  Folder.nodeOrdered_of_get? disk.ordered (get?_of_locate located)

/-- In an open folder in order nothing is left unlisted. -/
theorem Open.unlisted? (isOpen : disk.Open place inner) (ordered : inner.Ordered) (path : Text) :
    disk.unlisted? path place inner = none := by
  refine List.findSome?_eq_none_iff.mpr fun (found, there) member => ?_
  suffices listed : disk.failures.listing there = none by
    simp only [listed, Option.map_none]
  rcases List.mem_cons.mp member with here | below
  · cases here
    exact List.append_nil place ▸ isOpen.listed [] inner rfl
  · obtain ⟨first, rest, sub, rfl, _, leads⟩ := Folder.exists_route_of_mem_folders ordered below
    exact isOpen.listed _ sub leads

/-- The files of a folder whose names match are along the routes to them. -/
theorem map_fst_filter_files (pattern : Pattern) (inner : Folder) (path : Text) :
    ((inner.files path).filter fun (_, name) => pattern.accepts name).map (·.1) =
      (routesTo pattern inner).map (along path) := by
  rw [routesTo]
  simp only [Folder.files_eq, List.filter_map, List.map_map]
  rfl

/-- What is collected in a folder are the paths along its routes. -/
theorem eq_of_collect {paths : List Text}
    (located : disk.locate path = .ok (place, .folder inner))
    (collected : disk.collect path pattern = .ok paths) :
    paths = (routesTo pattern inner).map (along path) := by
  rw [collect, located] at collected
  dsimp only at collected
  split at collected
  case h_1 => cases collected
  case h_2 => contradiction
  case h_3 inside =>
    cases inside
    split at collected
    case h_1 => cases collected
    case h_2 =>
      rw [map_fst_filter_files] at collected
      exact (Except.ok.inj collected).symm

/-- Names on the routes to files are names that a file system gives. -/
theorem names_of_mem_routesTo (named : inner.Named) {route : List Text}
    (member : route ∈ routesTo pattern inner) : ∀ name ∈ route, IsName name :=
  named.of_mem_routes (List.mem_filter.mp member).1

/-- **Each collected path leads to a file of its own.** -/
theorem pairwise_place?_of_collect {paths : List Text} (named : disk.root.Named)
    (there : disk.isFolder path = true) (collected : disk.collect path pattern = .ok paths) :
    paths.Pairwise fun first second => disk.place? first ≠ disk.place? second := by
  unfold isFolder at there
  split at there
  case h_2 => cases there
  case h_1 place inner located =>
    have inside : inner.Named := named.of_get? (get?_of_locate located)
    have ordered := ordered_of_locate located
    have leads : ∀ route ∈ routesTo pattern inner,
        disk.place? (along path route) = some (place ++ route) := by
      intro route member
      obtain ⟨content, file⟩ := Option.isSome_iff_exists.mp
        ((Folder.mem_routes_iff ordered).mp (List.mem_filter.mp member).1)
      rw [place?, locate_along located (names_of_mem_routesTo inside member)
        (Folder.get?_of_fileAt file)]
    have distinct : (routesTo pattern inner).Pairwise (· ≠ ·) :=
      (nodup_of_increasing (Folder.increasing_routes ordered)).filter _
    rw [eq_of_collect located collected, List.pairwise_map]
    refine distinct.imp_of_mem fun {route other} member memberToo differs same => ?_
    rw [leads route member, leads other memberToo] at same
    exact differs (List.append_cancel_left (Option.some.inj same))

end Disk

end RoutineScripts
