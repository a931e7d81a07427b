import PeImage.Proofs.Resource.Layout
import PeImage.Proofs.Resource.Walk

/-!
# Reading resources is exact

Within its limits the walk reads exactly the trees that a window lays out. That it reads every
such tree rests on a count: a directory has more entries than any directory inside it, and a
window lays out one directory at an offset, so no directory on the path is met again however
tables are shared. That it reads nothing else rests on what the walk gives back: budget that is
left at the end was there at every row, and a path of distinct places cannot use up a depth as
large as the window.
-/

namespace PeImage

/-- The directories of a path are laid out, and none has fewer than `count` entries. -/
def ResourceDirectory.Enclosing (window : Bytes) (path : List Nat) (count : Nat) : Prop :=
  ∀ offset ∈ path, ∃ directory : ResourceDirectory,
    directory.LaidOut window offset ∧ count ≤ directory.entries.count

/-- What encloses many entries encloses fewer. -/
theorem ResourceDirectory.Enclosing.mono {window : Bytes} {path : List Nat} {count fewer : Nat}
    (h : Enclosing window path count) (hle : fewer ≤ count) : Enclosing window path fewer := by
  intro offset hoffset
  obtain ⟨directory, hlaid, hcount⟩ := h offset hoffset
  exact ⟨directory, hlaid, Nat.le_trans hle hcount⟩

/-- A directory with fewer entries than those around it is none of them. -/
theorem ResourceDirectory.Enclosing.not_mem {window : Bytes} {path : List Nat} {offset count : Nat}
    {directory : ResourceDirectory} (h : Enclosing window path count)
    (hlaid : directory.LaidOut window offset) (hlt : directory.entries.count < count) :
    offset ∉ path := by
  intro hoffset
  obtain ⟨around, haround, hcount⟩ := h offset hoffset
  obtain rfl := haround.unique hlaid
  omega

/-- Entering a directory keeps its entries enclosed. -/
theorem ResourceDirectory.Enclosing.cons {window : Bytes} {path : List Nat} {offset count : Nat}
    {directory : ResourceDirectory} (h : Enclosing window path count)
    (hlaid : directory.LaidOut window offset) (hle : directory.entries.count ≤ count) :
    Enclosing window (offset :: path) directory.entries.count :=
  List.forall_mem_cons.mpr ⟨⟨directory, hlaid, Nat.le_refl _⟩, h.mono hle⟩

/-- Laid out rows within depth and budget are read as their entries, at the cost of their count. -/
theorem ResourceEntries.LaidOut.read_eq_ok {window : Bytes} {offset rows : Nat}
    {entries : ResourceEntries} (hlaid : entries.LaidOut window offset rows) (below budget : Nat)
    (path : List Nat) (hnesting : entries.nesting ≤ below) (hcount : entries.count ≤ budget)
    (hpath : ResourceDirectory.Enclosing window path entries.count) :
    read window (ResourceDirectory.children? window path below) rows offset budget =
      .ok (entries, budget - entries.count) := by
  induction hlaid generalizing below budget path with
  | nil => rw [read, count, Nat.sub_zero]
  | @data offset rows row id data rest hrow hid hplain hdata _ ih =>
    rw [count] at hcount hpath ⊢
    obtain ⟨budget, rfl⟩ : ∃ less, budget = less + 1 := ⟨budget - 1, by omega⟩
    obtain ⟨hinside, rfl⟩ := (ResourceRow.stores_octets window offset row).mp hrow
    have hrest := ih below budget path hnesting (by omega) (hpath.mono (Nat.le_succ _))
    rw [Nat.add_sub_add_right]
    exact (read_succ_eq_ok ..).mpr ⟨hinside,
      .data ((ResourceId.read_eq_ok ..).mpr hid) ((markedOffset?_eq_none _).mpr hplain)
        ((ResourceData.read_eq_ok ..).mpr hdata) hrest⟩
  | @directory offset rows child row id table named numbered children rest hrow hid hmarked htable
      hchildren _ ihchildren ihrest =>
    rw [count] at hcount hpath ⊢
    rw [nesting] at hnesting
    obtain ⟨budget, rfl⟩ : ∃ less, budget = less + 1 := ⟨budget - 1, by omega⟩
    obtain ⟨below, rfl⟩ : ∃ fewer, below = fewer + 1 := ⟨below - 1, by omega⟩
    obtain ⟨hinside, rfl⟩ := (ResourceRow.stores_octets window offset row).mp hrow
    have hinner : ResourceDirectory.LaidOut window child ⟨table, children⟩ :=
      ⟨named, numbered, htable, hchildren⟩
    have hfresh : child ∉ path := hpath.not_mem hinner (by dsimp only; omega)
    obtain ⟨hchild, rfl, rfl, rfl⟩ :=
      (ResourceTable.stores_octets window child table named numbered).mp htable
    have hwalk : ResourceDirectory.walk window below path child budget =
        .ok (⟨ResourceTable.readAt window child, children⟩, budget - children.count) :=
      (ResourceDirectory.walk_eq_ok ..).mpr ⟨hfresh, hchild, rfl,
        ihchildren below budget (child :: path) (by omega) (by omega)
          (hpath.cons hinner (by dsimp only; omega))⟩
    have hrest := ihrest (below + 1) (budget - children.count) path (by omega) (by omega)
      (hpath.mono (by omega))
    rw [show budget + 1 - (children.count + rest.count + 1) =
      budget - children.count - rest.count by omega]
    exact (read_succ_eq_ok ..).mpr ⟨hinside,
      .entered ((ResourceId.read_eq_ok ..).mpr hid) ((markedOffset?_eq_some ..).mpr hmarked) rfl
        hwalk hrest⟩

/-- Rows that are read by exact readers of directories, with none left out, cost their count, and
they are laid out unless the budget ran out. -/
theorem ResourceEntries.laidOut_of_read {window : Bytes} {child : ResourceReader ResourceDirectory}
    (hchild : ∀ {target budget left : Nat} {directory : ResourceDirectory},
      child target budget = .ok (directory, left) → directory.entries.count + left = budget ∧
        (0 < left → directory.LaidOut window target))
    {rows offset budget left : Nat} {entries : ResourceEntries}
    (h : read window (some child) rows offset budget = .ok (entries, left)) :
    entries.count + left = budget ∧ (0 < left → entries.LaidOut window offset rows) := by
  induction rows generalizing offset budget entries with
  | zero =>
    obtain ⟨rfl, rfl⟩ := Prod.mk.inj (Except.ok.inj h)
    exact ⟨Nat.zero_add _, fun _ => .nil offset⟩
  | succ rows ih =>
    cases budget with
    | zero =>
      obtain ⟨rfl, rfl⟩ := Prod.mk.inj (Except.ok.inj h)
      exact ⟨rfl, fun hleft => absurd hleft (Nat.lt_irrefl 0)⟩
    | succ budget =>
      obtain ⟨hinside, hstep⟩ := (read_succ_eq_ok ..).mp h
      have hrow := (ResourceRow.stores_octets window offset _).mpr ⟨hinside, rfl⟩
      cases hstep with
      | data hid hplain hdata hrest =>
        obtain ⟨hcost, hlaid⟩ := ih hrest
        refine ⟨by rw [count]; omega, fun hleft => ?_⟩
        exact .data hrow ((ResourceId.read_eq_ok ..).mp hid)
          ((markedOffset?_eq_none _).mp hplain) ((ResourceData.read_eq_ok ..).mp hdata)
          (hlaid hleft)
      | leftOut _ _ hnone => cases hnone
      | entered hid hmarked hsome hinner hrest =>
        obtain rfl := Option.some.inj hsome
        obtain ⟨hcostInner, hlaidInner⟩ := hchild hinner
        obtain ⟨hcost, hlaid⟩ := ih hrest
        refine ⟨by rw [count]; omega, fun hleft => ?_⟩
        obtain ⟨named, numbered, htable, hchildren⟩ := hlaidInner (by omega)
        exact .directory hrow ((ResourceId.read_eq_ok ..).mp hid)
          ((markedOffset?_eq_some ..).mp hmarked) htable hchildren (hlaid hleft)

/-- A walk with more levels allowed than the window has room for costs the count of the tree, and
the tree is laid out unless the budget ran out. -/
theorem ResourceDirectory.laidOut_of_walk {window : Bytes} {below : Nat} {path : List Nat}
    {offset budget left : Nat} {directory : ResourceDirectory} (hpath : OpenPath window path)
    (hdeep : window.size ≤ below + path.length + 1)
    (h : walk window below path offset budget = .ok (directory, left)) :
    directory.entries.count + left = budget ∧ (0 < left → directory.LaidOut window offset) := by
  induction below generalizing path offset budget left directory with
  | zero =>
    -- The path with this directory on it would be longer than the window has places.
    obtain ⟨hfresh, hinside, _⟩ := (walk_eq_ok ..).mp h
    have hlength := (hpath.cons hfresh hinside).length_le
    rw [List.length_cons] at hlength
    unfold ResourceTable.byteSize at hlength hinside
    omega
  | succ below ih =>
    obtain ⟨hfresh, hinside, htable, hread⟩ := (walk_eq_ok ..).mp h
    have hopen := hpath.cons hfresh hinside
    obtain ⟨hcost, hlaid⟩ := ResourceEntries.laidOut_of_read
      (fun hinner => ih hopen (by rw [List.length_cons]; omega) hinner) hread
    refine ⟨hcost, fun hleft => ?_⟩
    exact ⟨_, _, (ResourceTable.stores_octets window offset _ _ _).mpr
      ⟨hinside, htable.symm, rfl, rfl⟩, hlaid hleft⟩

/-- Every tree that a window lays out within the limits is read as it is. With a depth limit no
smaller than the window, every tree that is read without spending the whole budget is one that the
window lays out. -/
theorem ResourceDirectory.read_exact (window : DirectoryWindow) (limits : Limits) :
    (∀ root : ResourceDirectory, root.LaidOut window.data 0 →
      root.nesting ≤ max 1 limits.resourceDepth → root.entries.count ≤ limits.resourceEntries →
        read window limits = .ok root) ∧
    (window.data.size ≤ limits.resourceDepth → ∀ root : ResourceDirectory,
      read window limits = .ok root → root.entries.count < limits.resourceEntries →
        root.LaidOut window.data 0) := by
  refine ⟨?_, ?_⟩
  · intro root hroot hnesting hcount
    obtain ⟨named, numbered, htable, hentries⟩ := hroot
    rw [nesting] at hnesting
    obtain ⟨hinside, hfixed, rfl, rfl⟩ :=
      (ResourceTable.stores_octets window.data 0 root.table named numbered).mp htable
    have hwalk : walk window.data (limits.resourceDepth - 1) [] 0 limits.resourceEntries =
        .ok (root, limits.resourceEntries - root.entries.count) :=
      (walk_eq_ok ..).mpr ⟨List.not_mem_nil, hinside, hfixed.symm,
        hentries.read_eq_ok _ _ [0] (by omega) hcount
          (List.forall_mem_singleton.mpr ⟨root, ⟨_, _, htable, hentries⟩, Nat.le_refl _⟩)⟩
    rw [read, hwalk]
    rfl
  · intro hdepth root hread hcount
    cases hwalk : walk window.data (limits.resourceDepth - 1) [] 0 limits.resourceEntries with
    | error fault =>
      rw [read, hwalk] at hread
      cases hread
    | ok result =>
      rw [read, hwalk] at hread
      obtain rfl := Except.ok.inj hread
      obtain ⟨hcost, hlaid⟩ := laidOut_of_walk (OpenPath.nil window.data)
        (by rw [List.length_nil]; omega) hwalk
      exact hlaid (by omega)

/-- The bytes of a directory of two entries, one with a name and one with a number. Both lead to
the directory at 32, which has one data entry. -/
def sharedOctets : List UInt8 :=
  ResourceTable.octets ⟨0, 0x5F5E1000, 4, 0⟩ 1 1 ++ ResourceRow.octets ⟨0x80000048, 0x80000020⟩ ++
    ResourceRow.octets ⟨3, 0x80000020⟩ ++ ResourceTable.octets ⟨0, 0, 0, 0⟩ 0 1 ++
    ResourceRow.octets ⟨0x409, 56⟩ ++ ResourceData.octets ⟨0x3100, 4, 0, 0⟩ ++
    Utf16.countedOctets [0x41]

/-- The tree of `sharedOctets`, in which the shared directory stands twice. -/
def sharedTree : ResourceDirectory where
  table := ⟨0, 0x5F5E1000, 4, 0⟩
  entries :=
    let leaf : ResourceEntries := .data (.number 0x409) ⟨0x3100, 4, 0, 0⟩ .nil
    .directory (.name "A") ⟨0, 0, 0, 0⟩ leaf (.directory (.number 3) ⟨0, 0, 0, 0⟩ leaf .nil)

/-- A tree with a shared directory is laid out, and it is what is read. -/
theorem ResourceDirectory.read_exact_sharedTree :
    read ⟨0x3000, Bytes.ofOctets sharedOctets⟩ Limits.unbounded = .ok sharedTree ∧
      sharedTree.LaidOut (Bytes.ofOctets sharedOctets) 0 := by
  have hfirst : (Bytes.ofOctets sharedOctets).Stores 16
      (ResourceRow.octets ⟨0x80000048, 0x80000020⟩) := by decide
  have hsecond : (Bytes.ofOctets sharedOctets).Stores 24
      (ResourceRow.octets ⟨3, 0x80000020⟩) := by decide
  have hinner : (Bytes.ofOctets sharedOctets).Stores 32
      (ResourceTable.octets ⟨0, 0, 0, 0⟩ 0 1) := by decide
  have hrow : (Bytes.ofOctets sharedOctets).Stores 48 (ResourceRow.octets ⟨0x409, 56⟩) := by decide
  have hname : ResourceId.Stored (Bytes.ofOctets sharedOctets) 0x80000048 (.name "A") :=
    .name 0x80000048 72 [0x41] (by decide) (by decide) (by decide)
  have hleaf : ResourceEntries.LaidOut (Bytes.ofOctets sharedOctets) 48 1
      (.data (.number 0x409) ⟨0x3100, 4, 0, 0⟩ .nil) :=
    .data hrow (.number 0x409 (by decide)) (by decide) (by decide) (.nil 56)
  have hlaid : sharedTree.LaidOut (Bytes.ofOctets sharedOctets) 0 :=
    ⟨1, 1, by decide, .directory hfirst hname (by decide) hinner hleaf
      (.directory hsecond (.number 3 (by decide)) (by decide) hinner hleaf (.nil 32))⟩
  have hread := (read_exact ⟨0x3000, Bytes.ofOctets sharedOctets⟩ Limits.unbounded).1 sharedTree
    hlaid (by decide) (by decide)
  exact ⟨hread, (read_exact _ _).2 (by decide) sharedTree hread (by decide)⟩

end PeImage
