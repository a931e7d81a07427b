import PeImage.Proofs.Checked.Resource
import PeImage.Proofs.Resource.Exactness

/-!
# Bounds of the resource walk

However the directories of a window refer to each other, what the walk does is bounded by its budget
and by the window. Every entry that is read is paid for, which bounds the entries of a tree; a
directory is entered only for a row that was paid for, which bounds how often that happens; and
directories inside each other are distinct places of the window, which bounds the nesting where no
limit does.
-/

namespace PeImage

namespace ResourceDirectory

/-- What bounds the entries that are read inside the directories of a path, with `below` levels
allowed and what is left of a budget. -/
structure EntriesBounded (window : Bytes) (path : List Nat) (below budget : Nat)
    (entries : ResourceEntries) (left : Nat) : Prop where
  count : entries.count + left ≤ budget
  levels : entries.nesting ≤ below
  places : path.length + entries.nesting ≤ window.size + 1 - ResourceTable.byteSize

/-- The entries of rows are bounded if those of the directories in them are. -/
theorem entriesBounded_of_read {window : Bytes} {path : List Nat} (hopen : OpenPath window path)
    (below : Nat)
    (hchild : ∀ less, below = less + 1 → ∀ target budget directory left,
      walk window less path target budget = .ok (directory, left) →
        EntriesBounded window (target :: path) less budget directory.entries left)
    (rows offset budget : Nat) (entries : ResourceEntries) (left : Nat)
    (h : ResourceEntries.read window (children? window path below) rows offset budget =
      .ok (entries, left)) : EntriesBounded window path below budget entries left := by
  have hnone (budget : Nat) : EntriesBounded window path below budget .nil budget :=
    ⟨Nat.le_of_eq (Nat.zero_add budget), Nat.zero_le below, hopen.length_le⟩
  induction rows generalizing offset budget entries left with
  | zero =>
    rw [ResourceEntries.read] at h
    obtain ⟨rfl, rfl⟩ := Prod.mk.inj (Except.ok.inj h)
    exact hnone budget
  | succ rows ih =>
    cases budget with
    | zero =>
      rw [ResourceEntries.read] at h
      obtain ⟨rfl, rfl⟩ := Prod.mk.inj (Except.ok.inj h)
      exact hnone 0
    | succ budget =>
      obtain ⟨_, hstep⟩ := (ResourceEntries.read_succ_eq_ok ..).mp h
      cases hstep with
      | data _ _ _ hrest =>
        obtain ⟨hcount, hlevels, hplaces⟩ := ih _ _ _ _ hrest
        refine ⟨?_, hlevels, hplaces⟩
        rw [ResourceEntries.count]
        omega
      | leftOut _ _ _ hrest =>
        obtain ⟨hcount, hlevels, hplaces⟩ := ih _ _ _ _ hrest
        exact ⟨by omega, hlevels, hplaces⟩
      | @entered id target child inner rest spent left _ _ hchild? hinner hrest =>
        obtain ⟨less, rfl, rfl⟩ := children?_eq_some.mp hchild?
        obtain ⟨hinnerCount, hinnerLevels, hinnerPlaces⟩ := hchild less rfl _ _ _ _ hinner
        obtain ⟨hcount, hlevels, hplaces⟩ := ih _ _ _ _ hrest
        rw [List.length_cons] at hinnerPlaces
        constructor
        · rw [ResourceEntries.count]
          omega
        · rw [ResourceEntries.nesting]
          omega
        · rw [ResourceEntries.nesting]
          omega

/-- The entries of a directory are bounded, whatever its rows refer to. -/
theorem entriesBounded_of_walk {window : Bytes} (below : Nat) {path : List Nat}
    (hopen : OpenPath window path) (offset budget : Nat) (directory : ResourceDirectory) (left : Nat)
    (h : walk window below path offset budget = .ok (directory, left)) :
    EntriesBounded window (offset :: path) below budget directory.entries left := by
  induction below generalizing path offset budget directory left with
  | zero =>
    obtain ⟨hfresh, hinside, _, hread⟩ := (walk_eq_ok ..).mp h
    exact entriesBounded_of_read (hopen.cons hfresh hinside) 0 (fun _ hless => nomatch hless)
      _ _ _ _ _ hread
  | succ below ih =>
    obtain ⟨hfresh, hinside, _, hread⟩ := (walk_eq_ok ..).mp h
    have hcons := hopen.cons hfresh hinside
    refine entriesBounded_of_read hcons (below + 1) (fun less hless => ?_) _ _ _ _ _ hread
    obtain rfl := Nat.succ.inj hless
    exact ih hcons

/-- A tree that is read has no more entries than the limit, and no more directories inside each
other than the limit on them or the places of the window allow. -/
theorem bounded_of_read {window : DirectoryWindow} {limits : Limits} {root : ResourceDirectory}
    (h : read window limits = .ok root) :
    root.entries.count ≤ limits.resourceEntries ∧
      root.nesting ≤ min (max 1 limits.resourceDepth) (window.data.size - 15) := by
  obtain ⟨⟨directory, left⟩, hwalk, rfl⟩ := map_eq_ok.mp h
  obtain ⟨hcount, hlevels, hplaces⟩ := entriesBounded_of_walk _ (.nil _) _ _ _ _ hwalk
  rw [List.length_singleton] at hplaces
  unfold ResourceTable.byteSize at hplaces
  rw [nesting]
  dsimp only
  exact ⟨by omega, Nat.le_min.mpr ⟨by omega, by omega⟩⟩

end ResourceDirectory

namespace Checked

/-- The end of a walk in a state, with what an exact reader gives. -/
def Walk.ended {α : Type} (final : ResourceWalker) :
    Except Fault α → EStateM.Result Stop ResourceWalker α
  | .ok value => .ok value final
  | .error fault => .error (.fault fault) final

/-- A part of a walk that follows a reader ends as the reader does, in a state that keeps what every
part keeps. -/
theorem Follows.exists_final {α : Type} {window : Bytes} {extra : Nat} {before : ResourceWalker}
    {result : EStateM.Result Stop ResourceWalker α} {reader : Except Fault (α × Nat)}
    (h : Follows window extra before result reader) :
    ∃ final, ResourceWalker.Kept window extra before final ∧
      result = Walk.ended final (reader.map Prod.fst) := by
  cases h with
  | value _ hkept => exact ⟨_, hkept, rfl⟩
  | fault hkept => exact ⟨_, hkept, rfl⟩

/-- The walk over the directories of a window ends, with the tree or the fault of the exact reader,
and whatever it ends with, it has entered no more directories than one and the limit on entries, and
the offsets on its path have at all times been distinct places of the window. The tree is bounded by
the limits and by the window. -/
theorem walkResources_bounded (window : DirectoryWindow) (limits : Limits)
    (hsize : window.data.size ≤ Limits.largest) (hdepth : limits.resourceDepth ≤ Limits.largest) :
    ∃ final : ResourceWalker,
      walkResources window limits = Walk.ended final (ResourceDirectory.read window limits) ∧
      final.entered ≤ 1 + limits.resourceEntries ∧
      (∀ path ∈ final.paths, path.Nodup ∧
        ∀ offset ∈ path, offset + ResourceTable.byteSize ≤ window.data.size) ∧
      ∀ root, ResourceDirectory.read window limits = .ok root →
        root.entries.count ≤ limits.resourceEntries ∧
          root.nesting ≤ min (max 1 limits.resourceDepth) (window.data.size - 15) := by
  obtain ⟨final, hkept, hresult⟩ :=
    (walkResources_follows window limits hsize hdepth).exists_final
  have hentered := hkept.entered
  have hopen := hkept.isOpen (ResourceWalker.isOpen_start _ _)
  dsimp only [ResourceWalker.start] at hentered
  refine ⟨final, hresult, by omega, fun path hpath => ?_, fun root hroot => ?_⟩
  · exact ⟨(hopen.paths path hpath).nodup, (hopen.paths path hpath).inside⟩
  · exact ResourceDirectory.bounded_of_read hroot

/-- The walk over a window of 76 bytes in which a directory is shared, with no limit but four
entries: directories are entered at most five times, and the window has room for 61 levels. -/
theorem walkResources_bounded_sharedTree :
    ∃ final : ResourceWalker,
      walkResources ⟨0x3000, Bytes.ofOctets sharedOctets⟩
          { Limits.unbounded with resourceEntries := 4 } = .ok sharedTree final ∧
        final.entered ≤ 5 ∧ (∀ path ∈ final.paths, path.Nodup) ∧
        sharedTree.entries.count ≤ 4 ∧ sharedTree.nesting ≤ 61 := by
  have hread : ResourceDirectory.read ⟨0x3000, Bytes.ofOctets sharedOctets⟩
      { Limits.unbounded with resourceEntries := 4 } = .ok sharedTree := by rfl
  obtain ⟨final, hresult, hentered, hpaths, hroot⟩ := walkResources_bounded
    ⟨0x3000, Bytes.ofOctets sharedOctets⟩ { Limits.unbounded with resourceEntries := 4 }
    (by decide) (by decide)
  rw [hread] at hresult
  exact ⟨final, hresult, hentered, fun path hpath => (hpaths path hpath).1, hroot sharedTree hread⟩

end Checked

end PeImage
