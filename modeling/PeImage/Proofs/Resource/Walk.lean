import PeImage.Proofs.Result
import PeImage.Resource.Read

/-!
# One step of the resource walk

What reading one row and entering one directory do when they succeed, guards included. A row is a
data entry, a directory that is left out, or a directory that is entered with the budget the rows
before it left. Entering a directory puts its offset on the path, and the offsets on a path are
distinct places of the window, which bounds how long the path can become.
-/

namespace PeImage

/-- The cases of a row that is read with a budget, the entries that it and the rows behind it give,
and what is left of the budget behind them. -/
inductive ResourceEntries.RowStep (window : Bytes)
    (child? : Option (ResourceReader ResourceDirectory)) (rows offset budget : Nat) :
    ResourceEntries → Nat → Prop
  | data {id : ResourceId} {data : ResourceData} {rest : ResourceEntries} {left : Nat}
      (hid : ResourceId.read window (ResourceRow.readAt window offset).id = .ok id)
      (hplain : markedOffset? (ResourceRow.readAt window offset).target = none)
      (hdata : ResourceData.read window (ResourceRow.readAt window offset).target.toNat = .ok data)
      (hrest : read window child? rows (offset + ResourceRow.byteSize) budget = .ok (rest, left)) :
      RowStep window child? rows offset budget (.data id data rest) left
  | leftOut {id : ResourceId} {target : Nat} {rest : ResourceEntries} {left : Nat}
      (hid : ResourceId.read window (ResourceRow.readAt window offset).id = .ok id)
      (hmarked : markedOffset? (ResourceRow.readAt window offset).target = some target)
      (hchild : child? = none)
      (hrest : read window child? rows (offset + ResourceRow.byteSize) budget = .ok (rest, left)) :
      RowStep window child? rows offset budget rest left
  | entered {id : ResourceId} {target : Nat} {child : ResourceReader ResourceDirectory}
      {inner : ResourceDirectory} {rest : ResourceEntries} {spent left : Nat}
      (hid : ResourceId.read window (ResourceRow.readAt window offset).id = .ok id)
      (hmarked : markedOffset? (ResourceRow.readAt window offset).target = some target)
      (hchild : child? = some child) (hinner : child target budget = .ok (inner, spent))
      (hrest : read window child? rows (offset + ResourceRow.byteSize) spent = .ok (rest, left)) :
      RowStep window child? rows offset budget (.directory id inner.table inner.entries rest) left

/-- A row is read in one of its cases, at the cost of one entry. -/
theorem ResourceEntries.read_succ_eq_ok (window : Bytes)
    (child? : Option (ResourceReader ResourceDirectory)) (rows offset budget : Nat)
    (entries : ResourceEntries) (left : Nat) :
    read window child? (rows + 1) offset (budget + 1) = .ok (entries, left) ↔
      offset + ResourceRow.byteSize ≤ window.size ∧
        RowStep window child? rows offset budget entries left := by
  rw [read]
  dsimp only
  split
  · rename_i hcut
    exact iff_of_false (by simp) fun h => Nat.not_le_of_lt hcut h.1
  · rename_i hinside
    rw [and_iff_right (Nat.le_of_not_lt hinside), bind_eq_ok]
    apply Iff.intro
    · intro h
      obtain ⟨id, hid, h⟩ := h
      split at h
      · rename_i hplain
        obtain ⟨data, hdata, h⟩ := bind_eq_ok.mp h
        obtain ⟨⟨rest, after⟩, hrest, h⟩ := bind_eq_ok.mp h
        obtain ⟨rfl, rfl⟩ := Prod.mk.inj (Except.ok.inj h)
        exact .data hid hplain hdata hrest
      · rename_i hmarked
        exact .leftOut hid hmarked rfl h
      · rename_i hmarked
        obtain ⟨⟨inner, spent⟩, hinner, h⟩ := bind_eq_ok.mp h
        obtain ⟨⟨rest, after⟩, hrest, h⟩ := bind_eq_ok.mp h
        obtain ⟨rfl, rfl⟩ := Prod.mk.inj (Except.ok.inj h)
        exact .entered hid hmarked rfl hinner hrest
    · intro h
      cases h with
      | data hid hplain hdata hrest =>
        refine ⟨_, hid, ?_⟩
        rw [hplain]
        exact bind_eq_ok.mpr ⟨_, hdata, bind_eq_ok.mpr ⟨_, hrest, rfl⟩⟩
      | leftOut hid hmarked hchild hrest =>
        refine ⟨_, hid, ?_⟩
        rw [hmarked]
        subst hchild
        exact hrest
      | entered hid hmarked hchild hinner hrest =>
        refine ⟨_, hid, ?_⟩
        rw [hmarked]
        subst hchild
        exact bind_eq_ok.mpr ⟨_, hinner, bind_eq_ok.mpr ⟨_, hrest, rfl⟩⟩

namespace ResourceDirectory

/-- The reader of directories inside those of a path, with `below` levels of them allowed. -/
def children? (window : Bytes) (path : List Nat) :
    (below : Nat) → Option (ResourceReader ResourceDirectory)
  | 0 => none
  | below + 1 => some (walk window below path)

/-- Directories are left out where no level is left for them. -/
theorem children?_eq_none {window : Bytes} {path : List Nat} {below : Nat} :
    children? window path below = none ↔ below = 0 := by
  cases below with
  | zero => exact iff_of_true rfl rfl
  | succ less => exact iff_of_false nofun nofun

/-- Directories are entered with one level less where one is left. -/
theorem children?_eq_some {window : Bytes} {path : List Nat} {below : Nat}
    {child : ResourceReader ResourceDirectory} :
    children? window path below = some child ↔
      ∃ less, below = less + 1 ∧ walk window less path = child := by
  constructor
  · intro h
    cases below with
    | zero => cases h
    | succ less => exact ⟨less, rfl, Option.some.inj h⟩
  · rintro ⟨less, rfl, rfl⟩
    rfl

/-- A directory is entered unless it contains itself or is cut off, and its rows are read. -/
theorem readTable_eq_ok (window : Bytes) (child? : Option Walker) (path : List Nat)
    (offset budget : Nat) (directory : ResourceDirectory) (left : Nat) :
    readTable window child? path offset budget = .ok (directory, left) ↔
      offset ∉ path ∧ offset + ResourceTable.byteSize ≤ window.size ∧
        directory.table = ResourceTable.readAt window offset ∧
        ResourceEntries.read window (child?.map (· (offset :: path)))
          (ResourceTable.rowCount window offset) (offset + ResourceTable.byteSize) budget =
          .ok (directory.entries, left) := by
  obtain ⟨table, entries⟩ := directory
  rw [readTable]
  split
  · rename_i hcycle
    simp [hcycle]
  · rename_i hfresh
    rw [and_iff_right hfresh]
    split
    · rename_i hcut
      exact iff_of_false (by simp) fun h => Nat.not_le_of_lt hcut h.1
    · rename_i hinside
      rw [and_iff_right (Nat.le_of_not_lt hinside), bind_eq_ok]
      apply Iff.intro
      · intro h
        obtain ⟨⟨entries', left'⟩, hread, h⟩ := h
        simp only [pure, Except.pure, Except.ok.injEq, Prod.mk.injEq, mk.injEq] at h
        obtain ⟨⟨rfl, rfl⟩, rfl⟩ := h
        exact ⟨rfl, hread⟩
      · intro h
        obtain ⟨rfl, hread⟩ := h
        exact ⟨_, hread, rfl⟩

/-- Walking a directory with `below` levels allowed under it is entering it with readers for them. -/
theorem walk_eq_ok (window : Bytes) (below : Nat) (path : List Nat) (offset budget : Nat)
    (directory : ResourceDirectory) (left : Nat) :
    walk window below path offset budget = .ok (directory, left) ↔
      offset ∉ path ∧ offset + ResourceTable.byteSize ≤ window.size ∧
        directory.table = ResourceTable.readAt window offset ∧
        ResourceEntries.read window (children? window (offset :: path) below)
          (ResourceTable.rowCount window offset) (offset + ResourceTable.byteSize) budget =
          .ok (directory.entries, left) := by
  cases below with
  | zero => exact readTable_eq_ok window none path offset budget directory left
  | succ below => exact readTable_eq_ok window (some (walk window below)) path offset budget _ left

/-- Walking a directory refuses it where it contains itself or is cut off, and otherwise reads its
rows. -/
theorem walk_eq (window : Bytes) (below : Nat) (path : List Nat) (offset budget : Nat) :
    walk window below path offset budget =
      if offset ∈ path then .error (.resourceCycle offset)
      else if window.size < offset + ResourceTable.byteSize then .error .outOfBounds
      else
        ResourceEntries.read window (children? window (offset :: path) below)
          (ResourceTable.rowCount window offset) (offset + ResourceTable.byteSize) budget >>=
            fun read => .ok (⟨ResourceTable.readAt window offset, read.1⟩, read.2) := by
  cases below <;> rfl

/-- The offsets of directories inside each other: places of the window, none of them twice. -/
structure OpenPath (window : Bytes) (path : List Nat) : Prop where
  nodup : path.Nodup
  inside : ∀ offset ∈ path, offset + ResourceTable.byteSize ≤ window.size

/-- No directory is open at the start. -/
theorem OpenPath.nil (window : Bytes) : OpenPath window [] := ⟨List.nodup_nil, by simp⟩

/-- Entering a directory keeps the path open. -/
theorem OpenPath.cons {window : Bytes} {path : List Nat} {offset : Nat}
    (h : OpenPath window path) (hfresh : offset ∉ path)
    (hinside : offset + ResourceTable.byteSize ≤ window.size) :
    OpenPath window (offset :: path) :=
  ⟨List.nodup_cons.mpr ⟨hfresh, h.nodup⟩, List.forall_mem_cons.mpr ⟨hinside, h.inside⟩⟩

/-- Leaving a directory keeps the path open. -/
theorem OpenPath.tail {window : Bytes} {path : List Nat} (h : OpenPath window path) :
    OpenPath window path.tail :=
  ⟨h.nodup.tail, fun offset hoffset => h.inside offset (List.mem_of_mem_tail hoffset)⟩

/-- A path has no more directories than the window has places for one. -/
theorem OpenPath.length_le {window : Bytes} {path : List Nat} (h : OpenPath window path) :
    path.length ≤ window.size + 1 - ResourceTable.byteSize := by
  have hsubset : path ⊆ List.range (window.size + 1 - ResourceTable.byteSize) := by
    intro offset hoffset
    have hend := h.inside offset hoffset
    rw [List.mem_range]
    omega
  have hlength := h.nodup.length_le_of_subset hsubset
  rwa [List.length_range] at hlength

end ResourceDirectory

end PeImage
