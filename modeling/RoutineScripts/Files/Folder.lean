import RoutineScripts.Text.Basic

/-!
# Folders

A folder is a finite directory tree: files with their bytes, and folders in turn. Entries are kept
in the order of their names, which `Folder.Ordered` states for every level of the tree.

Folders are read and changed along paths given as lists of names.
-/

namespace RoutineScripts

/-- The entries of a folder. `others` are the entries after the first one. -/
inductive Folder
  | empty
  | file (name : Text) (content : Bytes) (others : Folder)
  | folder (name : Text) (inner : Folder) (others : Folder)
  deriving DecidableEq, Repr

/-- What a name in a folder stands for. -/
inductive Node
  | file (content : Bytes)
  | folder (inner : Folder)
  deriving DecidableEq, Repr

namespace Folder

/-- The names of the entries, in order. -/
def names : Folder → List Text
  | empty => []
  | file name _ others => name :: others.names
  | folder name _ others => name :: others.names

/-- The names at every level come in strict order. -/
def Ordered : Folder → Prop
  | empty => True
  | file name _ others => (∀ other ∈ others.names, name.precedes other) ∧ others.Ordered
  | folder name inner others =>
      (∀ other ∈ others.names, name.precedes other) ∧ inner.Ordered ∧ others.Ordered

/-- The folder of a node, if it is one, is ordered. -/
def NodeOrdered : Node → Prop
  | .file _ => True
  | .folder inner => inner.Ordered

/-- The entry with a given name. -/
def find? (wanted : Text) : Folder → Option Node
  | empty => none
  | file name content others =>
      if name = wanted then some (.file content) else others.find? wanted
  | folder name inner others =>
      if name = wanted then some (.folder inner) else others.find? wanted

/-- The folder with one more entry in front. -/
def entry (name : Text) (node : Node) (others : Folder) : Folder :=
  match node with
  | .file content => file name content others
  | .folder inner => folder name inner others

/-- Puts an entry into a folder, in its place. An entry of the same name is replaced. -/
def put (wanted : Text) (node : Node) : Folder → Folder
  | empty => entry wanted node empty
  | file name content others =>
      if wanted = name then entry wanted node others
      else if wanted.precedes name then entry wanted node (file name content others)
      else file name content (others.put wanted node)
  | folder name inner others =>
      if wanted = name then entry wanted node others
      else if wanted.precedes name then entry wanted node (folder name inner others)
      else folder name inner (others.put wanted node)

/-- What a path leads to. -/
def get? (tree : Folder) : List Text → Option Node
  | [] => some (.folder tree)
  | name :: rest =>
      match tree.find? name with
      | some (.folder inner) => inner.get? rest
      | some (.file content) => if rest.isEmpty then some (.file content) else none
      | none => none

/-- Puts a node where a path leads, making the folders on the way that are missing. Nothing changes
when a file is in the way. -/
def insert (tree : Folder) (node : Node) : List Text → Folder
  | [] => tree
  | [name] => tree.put name node
  | name :: rest =>
      match tree.find? name with
      | some (.folder inner) => tree.put name (.folder (inner.insert node rest))
      | some (.file _) => tree
      | none => tree.put name (.folder (empty.insert node rest))

/-- The names of a folder with one more entry are that entry's and those of the others. -/
theorem mem_names_entry {name other : Text} {node : Node} {others : Folder} :
    other ∈ (entry name node others).names ↔ other = name ∨ other ∈ others.names := by
  cases node <;> simp [entry, names]

/-- A folder is in order when its first name comes before the others and the rest is in order. -/
theorem ordered_entry {name : Text} {node : Node} {others : Folder} :
    (entry name node others).Ordered ↔
      (∀ other ∈ others.names, name.precedes other) ∧ NodeOrdered node ∧ others.Ordered := by
  cases node <;> simp [entry, Ordered, NodeOrdered]

/-- Putting a node under a name adds no other name. -/
theorem mem_names_put {wanted other : Text} {node : Node} {tree : Folder} :
    other ∈ (tree.put wanted node).names → other = wanted ∨ other ∈ tree.names := by
  induction tree with
  | empty => simp [put, mem_names_entry, names]
  | file name content others ih | folder name inner others _ ih =>
      simp only [put]
      split
      · simp only [mem_names_entry, names, List.mem_cons]
        exact Or.imp_right Or.inr
      · split
        · exact mem_names_entry.mp
        · simp only [names, List.mem_cons]
          rintro (same | later)
          · exact Or.inr (Or.inl same)
          · exact (ih later).imp_right Or.inr

/-- Putting an ordered node into an ordered folder keeps it ordered. -/
theorem ordered_put {wanted : Text} {node : Node} {tree : Folder}
    (nodeOrdered : NodeOrdered node) (ordered : tree.Ordered) :
    (tree.put wanted node).Ordered := by
  induction tree with
  | empty => simp [put, ordered_entry, nodeOrdered, names, Ordered]
  | file name content others ih =>
      simp only [put]
      split
      case isTrue same => exact ordered_entry.mpr ⟨same ▸ ordered.1, nodeOrdered, ordered.2⟩
      case isFalse different =>
        split
        case isTrue below =>
          refine ordered_entry.mpr ⟨fun other member => ?_, nodeOrdered, ordered⟩
          cases List.mem_cons.mp member with
          | inl same => exact same ▸ below
          | inr later => exact Text.precedes_trans below (ordered.1 other later)
        case isFalse above =>
          refine ⟨fun other member => ?_, ih ordered.2⟩
          cases mem_names_put member with
          | inl same => exact same ▸ Text.precedes_of_ne different above
          | inr later => exact ordered.1 other later
  | folder name inner others _ ih =>
      simp only [put]
      split
      case isTrue same => exact ordered_entry.mpr ⟨same ▸ ordered.1, nodeOrdered, ordered.2.2⟩
      case isFalse different =>
        split
        case isTrue below =>
          refine ordered_entry.mpr ⟨fun other member => ?_, nodeOrdered, ordered⟩
          cases List.mem_cons.mp member with
          | inl same => exact same ▸ below
          | inr later => exact Text.precedes_trans below (ordered.1 other later)
        case isFalse above =>
          refine ⟨fun other member => ?_, ordered.2.1, ih ordered.2.2⟩
          cases mem_names_put member with
          | inl same => exact same ▸ Text.precedes_of_ne different above
          | inr later => exact ordered.1 other later

/-- What is found in an ordered folder is ordered. -/
theorem nodeOrdered_of_find? {wanted : Text} {node : Node} {tree : Folder}
    (ordered : tree.Ordered) (found : tree.find? wanted = some node) : NodeOrdered node := by
  induction tree with
  | empty => simp [find?] at found
  | file name content others ih =>
      simp only [find?] at found
      split at found
      · cases found; trivial
      · exact ih ordered.2 found
  | folder name inner others _ ih =>
      simp only [find?] at found
      split at found
      · cases found; exact ordered.2.1
      · exact ih ordered.2.2 found

/-- Inserting along a path keeps a tree ordered. -/
theorem ordered_insert {node : Node} (nodeOrdered : NodeOrdered node) (path : List Text) :
    ∀ {tree : Folder}, tree.Ordered → (tree.insert node path).Ordered := by
  induction path with
  | nil => intro tree ordered; simpa [insert] using ordered
  | cons name rest ih =>
      intro tree ordered
      cases rest with
      | nil => exact ordered_put nodeOrdered ordered
      | cons next others =>
          simp only [insert]
          split
          case h_1 inner found =>
            have kept := ih (nodeOrdered_of_find? ordered found)
            exact ordered_put (show NodeOrdered (.folder _) from kept) ordered
          case h_2 => exact ordered
          case h_3 =>
            have made := ih (show Ordered empty from trivial)
            exact ordered_put (show NodeOrdered (.folder _) from made) ordered

end Folder

end RoutineScripts
