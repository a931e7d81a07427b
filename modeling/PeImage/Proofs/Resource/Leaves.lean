import Mathlib.Data.List.Forall2
import Mathlib.Data.List.Lex
import PeImage.Resource.Tree

/-!
# The resources of a tree

A resource is found in its tree by positions of entries, the first of them in the root. The list of
resources has one for every place that leads to a resource, in the lexicographic order of the
places, which is the order of a depth-first walk. The path of a resource has the identifiers of the
entries on the way to it, whatever other entries have the same ones.

A walk that keeps one path for all levels comes to the same list, provided that it takes every
identifier off the path again before it goes on to the next entry.
-/

namespace PeImage

/-- What an entry of a directory leads to. -/
inductive ResourceTarget
  | data (data : ResourceData)
  | directory (directory : ResourceDirectory)
  deriving DecidableEq, Repr

/-- A resource seen from the outside of directories with given identifiers. -/
def ResourceLeaf.inside (ids : List ResourceId) (leaf : ResourceLeaf) : ResourceLeaf :=
  ⟨ids ++ leaf.path, leaf.data⟩

namespace ResourceEntries

/-- The entries one by one, each with its identifier and what it leads to. -/
def toList : ResourceEntries → List (ResourceId × ResourceTarget)
  | nil => []
  | data id leaf rest => (id, .data leaf) :: rest.toList
  | directory id table children rest => (id, .directory ⟨table, children⟩) :: rest.toList

/-- The resource that is reached by the entries at given positions, the first of them among these
entries and each further one in the directory that the one before it leads to. -/
def follow? (entries : ResourceEntries) : List Nat → Option ResourceLeaf
  | [] => none
  | position :: below =>
    match entries.toList[position]? with
    | some (id, .data leaf) => if below = [] then some ⟨[id], leaf⟩ else none
    | some (id, .directory child) => (child.entries.follow? below).map (.inside [id])
    | none => none

/-- The places of the resources in the order of a depth-first walk, where the first entry is at a
given position. -/
def places (position : Nat) : ResourceEntries → List (List Nat)
  | nil => []
  | data _ _ rest => [position] :: rest.places (position + 1)
  | directory _ _ children rest =>
    (children.places 0).map (position :: ·) ++ rest.places (position + 1)

/-- A place begins with the position of an entry. -/
theorem exists_of_mem_places {entries : ResourceEntries} {position : Nat} {place : List Nat}
    (h : place ∈ entries.places position) :
    ∃ first below, place = first :: below ∧ position ≤ first := by
  induction entries generalizing position with
  | nil => exact absurd h List.not_mem_nil
  | data _ _ rest ih =>
    rcases List.mem_cons.mp h with rfl | hrest
    · exact ⟨position, [], rfl, Nat.le_refl _⟩
    · obtain ⟨first, below, hplace, hle⟩ := ih hrest
      exact ⟨first, below, hplace, Nat.le_of_succ_le hle⟩
  | directory _ _ children rest _ ih =>
    rcases List.mem_append.mp h with hinner | hrest
    · obtain ⟨below, _, rfl⟩ := List.mem_map.mp hinner
      exact ⟨position, below, rfl, Nat.le_refl _⟩
    · obtain ⟨first, below, hplace, hle⟩ := ih hrest
      exact ⟨first, below, hplace, Nat.le_of_succ_le hle⟩

/-- What is at an entry comes before what is behind it. -/
theorem lt_of_mem_places {entries : ResourceEntries} {position : Nat} {below place : List Nat}
    (h : place ∈ entries.places (position + 1)) : position :: below < place := by
  obtain ⟨first, other, rfl, hlt⟩ := exists_of_mem_places h
  exact List.cons_lt_cons_iff.mpr (Or.inl hlt)

/-- Places are met in lexicographic order, each once. -/
theorem places_pairwise (entries : ResourceEntries) (position : Nat) :
    (entries.places position).Pairwise (· < ·) := by
  induction entries generalizing position with
  | nil => exact List.Pairwise.nil
  | data _ _ rest ih =>
    exact List.pairwise_cons.mpr ⟨fun place hplace => lt_of_mem_places hplace, ih (position + 1)⟩
  | directory _ _ children rest ihchildren ihrest =>
    refine List.pairwise_append.mpr ⟨?_, ihrest (position + 1), ?_⟩
    · refine List.pairwise_map.mpr ((ihchildren 0).imp fun hlt => ?_)
      exact List.cons_lt_cons_iff.mpr (Or.inr ⟨rfl, hlt⟩)
    · intro first hfirst place hplace
      obtain ⟨below, _, rfl⟩ := List.mem_map.mp hfirst
      exact lt_of_mem_places hplace

/-- Of the places at an entry and behind it, those with its position are at it. -/
theorem cons_mem_append_places {front : List (List Nat)} {rest : ResourceEntries} {start : Nat}
    {below : List Nat} :
    start :: below ∈ front ++ rest.places (start + 1) ↔ start :: below ∈ front := by
  rw [List.mem_append]
  exact or_iff_left fun h => lt_irrefl _ (lt_of_mem_places h)

/-- Of the places at an entry and behind it, those with a later position are behind it. -/
theorem succ_cons_mem_append_places {front : List (List Nat)} {rest : ResourceEntries}
    {start position : Nat} {below : List Nat}
    (hfront : ∀ place ∈ front, place.head? = some start) :
    (start + (position + 1)) :: below ∈ front ++ rest.places (start + 1) ↔
      (start + 1 + position) :: below ∈ rest.places (start + 1) := by
  have hnext : start + (position + 1) = start + 1 + position := by omega
  rw [hnext, List.mem_append]
  refine or_iff_right fun h => ?_
  have hposition := Option.some.inj (hfront _ h)
  omega

/-- A place is that of an entry that is a resource, or goes on with a place in the directory that
the entry leads to. -/
theorem cons_mem_places (entries : ResourceEntries) (start position : Nat) (below : List Nat) :
    (start + position) :: below ∈ entries.places start ↔
      match entries.toList[position]? with
      | some (_, .data _) => below = []
      | some (_, .directory child) => below ∈ child.entries.places 0
      | none => False := by
  induction entries generalizing start position with
  | nil => exact iff_of_false List.not_mem_nil id
  | data id leaf rest ih =>
    have hplaces : (data id leaf rest).places start = [[start]] ++ rest.places (start + 1) := rfl
    rw [hplaces]
    cases position with
    | zero =>
      rw [Nat.add_zero start, cons_mem_append_places, List.mem_singleton, List.cons.injEq,
        and_iff_right rfl]
      rfl
    | succ position =>
      rw [succ_cons_mem_append_places (by simp)]
      exact ih (start + 1) position
  | directory id table children rest _ ih =>
    rw [places]
    cases position with
    | zero =>
      rw [Nat.add_zero start, cons_mem_append_places, List.mem_map]
      simp only [List.cons.injEq, true_and, exists_eq_right]
      rfl
    | succ position =>
      rw [succ_cons_mem_append_places (by simp)]
      exact ih (start + 1) position

/-- The places are those that lead to a resource. -/
theorem mem_places_iff (entries : ResourceEntries) (place : List Nat) :
    place ∈ entries.places 0 ↔ (entries.follow? place).isSome := by
  induction place generalizing entries with
  | nil =>
    refine iff_of_false (fun h => ?_) Bool.false_ne_true
    obtain ⟨_, _, hplace, _⟩ := exists_of_mem_places h
    exact nomatch hplace
  | cons position below ih =>
    have hplace := cons_mem_places entries 0 position below
    rw [Nat.zero_add] at hplace
    rw [hplace, follow?]
    split
    · split <;> simp [*]
    · rw [Option.isSome_map]
      exact ih _
    · simp

/-- What stands in front of a path does not matter to the resources. -/
theorem leaves_eq_map_inside (entries : ResourceEntries) (around : List ResourceId) :
    entries.leaves around = (entries.leaves []).map (.inside around.reverse) := by
  induction entries generalizing around with
  | nil => rfl
  | data id leaf rest ih =>
    rw [leaves, leaves, List.map_cons, ← ih]
    simp [ResourceLeaf.inside]
  | directory id table children rest ihchildren ihrest =>
    rw [leaves, leaves, List.map_append, ← ihrest, ihchildren (id :: around), ihchildren [id],
      List.map_map]
    congr 2
    funext leaf
    simp [ResourceLeaf.inside]

/-- The first of the elements from a position on is the one at that position, and the others are
those from the next position on. -/
theorem getElem?_of_drop_eq_cons {α : Type} {list rest : List α} {position : Nat} {first : α}
    (h : list.drop position = first :: rest) :
    list[position]? = some first ∧ list.drop (position + 1) = rest := by
  constructor
  · rw [← Nat.add_zero position, ← List.getElem?_drop, h]
    rfl
  · rw [← List.tail_drop, h]
    rfl

/-- Following all places gives the resources in their order. -/
theorem map_follow?_places (entries whole : ResourceEntries) (position : Nat)
    (h : whole.toList.drop position = entries.toList) :
    (entries.places position).map whole.follow? = (entries.leaves []).map some := by
  induction entries generalizing whole position with
  | nil => rfl
  | data id leaf rest ih =>
    obtain ⟨hentry, hrest⟩ := getElem?_of_drop_eq_cons h
    rw [places, leaves, List.map_cons, List.map_cons, ih whole (position + 1) hrest, follow?,
      hentry]
    rfl
  | directory id table children rest ihchildren ihrest =>
    obtain ⟨hentry, hrest⟩ := getElem?_of_drop_eq_cons h
    have hinner : whole.follow? ∘ (position :: ·) =
        Option.map (.inside [id]) ∘ children.follow? := by
      funext below
      rw [Function.comp_apply, follow?, hentry]
      rfl
    rw [places, leaves, List.map_append, List.map_append, ihrest whole (position + 1) hrest,
      List.map_map, hinner, ← List.map_map, ihchildren children 0 rfl, leaves_eq_map_inside _ [id],
      List.map_map, List.map_map]
    rfl

/-- The path to a resource has an identifier for each position of its place. -/
theorem length_path_of_follow? {entries : ResourceEntries} {place : List Nat} {leaf : ResourceLeaf}
    (h : entries.follow? place = some leaf) : leaf.path.length = place.length := by
  induction place generalizing entries leaf with
  | nil => exact nomatch h
  | cons position below ih =>
    rw [follow?] at h
    split at h
    · obtain ⟨rfl, hleaf⟩ := Option.ite_none_right_eq_some.mp h
      obtain rfl := Option.some.inj hleaf
      rfl
    · obtain ⟨inner, hinner, rfl⟩ := Option.map_eq_some_iff.mp h
      exact congrArg Nat.succ (ih hinner)
    · exact nomatch h

end ResourceEntries

/-- A walk that collects resources, with one path for all levels. -/
structure LeafCollector where
  path : List ResourceId
  found : List ResourceLeaf

namespace LeafCollector

/-- Goes to an entry. -/
def enter (collector : LeafCollector) (id : ResourceId) : LeafCollector :=
  { collector with path := collector.path ++ [id] }

/-- Goes back from an entry. -/
def leave (collector : LeafCollector) : LeafCollector :=
  { collector with path := collector.path.dropLast }

/-- Takes the resource that the path leads to. -/
def take (collector : LeafCollector) (data : ResourceData) : LeafCollector :=
  { collector with found := collector.found ++ [⟨collector.path, data⟩] }

end LeafCollector

/-- Collects the resources among and below the entries. -/
def ResourceEntries.collect : ResourceEntries → LeafCollector → LeafCollector
  | nil, collector => collector
  | data id leaf rest, collector => rest.collect ((collector.enter id).take leaf).leave
  | directory id _ children rest, collector =>
    rest.collect (children.collect (collector.enter id)).leave

/-- The walk ends on the path on which it began, and has found the resources with that path in front
of their own. -/
theorem ResourceEntries.collect_eq (entries : ResourceEntries) (path : List ResourceId)
    (found : List ResourceLeaf) :
    entries.collect ⟨path, found⟩ = ⟨path, found ++ entries.leaves path.reverse⟩ := by
  induction entries generalizing path found with
  | nil => simp [collect, leaves]
  | data id leaf rest ih =>
    simp [collect, leaves, LeafCollector.enter, LeafCollector.take, LeafCollector.leave, ih]
  | directory id table children rest ihchildren ihrest =>
    simp [collect, leaves, LeafCollector.enter, LeafCollector.leave, ihchildren, ihrest]

/-- An identifier stands for a kind where it is the number of that kind. -/
theorem ResourceId.kind?_eq_some (id : ResourceId) (kind : ResourceKind) :
    id.kind? = some kind ↔ id = .number kind.number := by
  constructor
  · intro h
    cases id with
    | number n =>
      have hnumber := List.find?_some h
      rw [of_decide_eq_true hnumber]
    | name text => exact nomatch h
  · rintro rfl
    exact ResourceKind.ofNumber?_number kind

/-- A resource has a kind where its path begins with the number of that kind. -/
theorem ResourceLeaf.kind?_eq_some (leaf : ResourceLeaf) (kind : ResourceKind) :
    leaf.kind? = some kind ↔ leaf.path.head? = some (.number kind.number) := by
  simp only [ResourceLeaf.kind?, Option.bind_eq_some_iff, ResourceId.kind?_eq_some,
    exists_eq_right]

namespace ResourceDirectory

/-- The resource that is reached from the root of a tree by the entries at given positions. -/
def follow? (root : ResourceDirectory) (place : List Nat) : Option ResourceLeaf :=
  root.entries.follow? place

/-- The walk that keeps the open path finds the list of resources and ends with no path open. The
list has one element for each place of the tree that leads to a resource, in the order of a
depth-first walk, and the element is the resource that the place leads to, with one identifier on
its path for each level. Those of a kind are the ones whose path begins with its number. -/
theorem leaves_enumerate (root : ResourceDirectory) :
    root.entries.collect ⟨[], []⟩ = ⟨[], root.leaves⟩ ∧
    (∃ places : List (List Nat), places.Pairwise (· < ·) ∧
      (∀ place, place ∈ places ↔ (root.follow? place).isSome) ∧
      places.Forall₂ (fun place leaf =>
        root.follow? place = some leaf ∧ leaf.path.length = place.length) root.leaves) ∧
    ∀ kind, root.leavesOfKind kind =
      root.leaves.filter (·.path.head? = some (.number kind.number)) := by
  refine ⟨root.entries.collect_eq [] [], ⟨root.entries.places 0, ?_, ?_, ?_⟩, fun kind => ?_⟩
  · exact root.entries.places_pairwise 0
  · exact root.entries.mem_places_iff
  · have hfollow := root.entries.map_follow?_places root.entries 0 rfl
    rw [← List.forall₂_eq_eq_eq, List.forall₂_map_left_iff, List.forall₂_map_right_iff] at hfollow
    exact hfollow.imp fun _ _ h => ⟨h, ResourceEntries.length_path_of_follow? h⟩
  · refine List.filter_congr fun leaf _ => ?_
    simp only [leaf.kind?_eq_some kind]

end ResourceDirectory

end PeImage
