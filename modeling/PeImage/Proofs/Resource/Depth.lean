import PeImage.Proofs.Resource.Exactness

/-!
# A smaller depth limit leaves resources out by their paths

A resource stands one level below its directory, so the length of its path tells how deep it is. A
walk with a smaller limit on the depth leaves out the directories below that limit, and thereby
exactly the resources with longer paths. It reads the rows of the directories that it enters as
before, also those whose directories it leaves out, and spends no more of its budget.

What is left of the budget is different in the two walks, so they are compared by what they take
from a budget that is large enough for them.
-/

namespace PeImage

/-- The entries without the directories that are below more than `below` levels of directories. -/
def ResourceEntries.prune : ResourceEntries → (below : Nat) → ResourceEntries
  | nil, _ => nil
  | data id leaf rest, below => data id leaf (rest.prune below)
  | directory _ _ _ rest, 0 => rest.prune 0
  | directory id table children rest, below + 1 =>
    directory id table (children.prune below) (rest.prune (below + 1))

/-- The tree with at most `below` levels of directories under its root. -/
def ResourceDirectory.prune (root : ResourceDirectory) (below : Nat) : ResourceDirectory :=
  ⟨root.table, root.entries.prune below⟩

namespace ResourceEntries

/-- The path of a resource is longer than what is around its entry. -/
theorem length_lt_of_mem_leaves {entries : ResourceEntries} {around : List ResourceId}
    {leaf : ResourceLeaf} (h : leaf ∈ entries.leaves around) : around.length < leaf.path.length := by
  induction entries generalizing around with
  | nil => exact absurd h List.not_mem_nil
  | data id data rest ih =>
    rcases List.mem_cons.mp h with rfl | hrest
    · simp
    · exact ih hrest
  | directory id table children rest ihchildren ihrest =>
    rcases List.mem_append.mp h with hinner | hrest
    · exact Nat.lt_trans (Nat.lt_succ_self _) (ihchildren hinner)
    · exact ihrest hrest

/-- The resources that are not left out are those with short paths. -/
theorem leaves_prune (entries : ResourceEntries) (below : Nat) (around : List ResourceId) :
    (entries.prune below).leaves around =
      (entries.leaves around).filter (·.path.length ≤ around.length + 1 + below) := by
  induction entries generalizing below around with
  | nil => rfl
  | data id leaf rest ih =>
    rw [prune, leaves, leaves, ih, List.filter_cons_of_pos (by simp)]
  | directory id table children rest ihchildren ihrest =>
    rw [leaves, List.filter_append]
    cases below with
    | zero =>
      have hnone : (children.leaves (id :: around)).filter
          (·.path.length ≤ around.length + 1 + 0) = [] := by
        refine List.filter_eq_nil_iff.mpr fun leaf hleaf => ?_
        have hlength := length_lt_of_mem_leaves hleaf
        rw [List.length_cons] at hlength
        simpa using hlength
      rw [prune, ihrest, hnone, List.nil_append]
    | succ below =>
      have hinner := ihchildren below (id :: around)
      rw [List.length_cons, Nat.add_right_comm _ 1 below, Nat.add_assoc _ below 1] at hinner
      rw [prune, leaves, hinner, ihrest]

end ResourceEntries

/-- A reader takes `cost` entries of a budget to give a value, whatever the budget has beyond. -/
def Takes {α : Type} (reader : (budget : Nat) → Except Fault (α × Nat)) (cost : Nat) (value : α) :
    Prop :=
  ∀ spare, reader (cost + spare) = .ok (value, spare)

/-- Rows take one entry more than what follows the cost of their first row. -/
theorem ResourceEntries.takes_succ {window : Bytes}
    {child? : Option (ResourceReader ResourceDirectory)} {rows offset cost : Nat}
    {entries : ResourceEntries} (hinside : offset + ResourceRow.byteSize ≤ window.size)
    (hstep : ∀ spare, RowStep window child? rows offset (cost + spare) entries spare) :
    Takes (read window child? (rows + 1) offset) (cost + 1) entries := by
  intro spare
  rw [Nat.add_right_comm]
  exact (read_succ_eq_ok ..).mpr ⟨hinside, hstep spare⟩

/-- Rows that are read without spending the whole budget are read with less levels of directories,
at no more cost, if that is so of the directories among them. -/
theorem ResourceEntries.takes_prune_of_read {window : Bytes} {path : List Nat} {deep shallow : Nat}
    (hle : shallow ≤ deep)
    (hchild : ∀ less, deep = less + 1 → ∀ fewer ≤ less, ∀ target budget directory left,
      ResourceDirectory.walk window less path target budget = .ok (directory, left) → 0 < left →
        ∃ cost, cost + left ≤ budget ∧
          Takes (ResourceDirectory.walk window fewer path target) cost (directory.prune fewer))
    (rows offset budget : Nat) (entries : ResourceEntries) (left : Nat)
    (h : read window (ResourceDirectory.children? window path deep) rows offset budget =
      .ok (entries, left)) (hleft : 0 < left) :
    ∃ cost, cost + left ≤ budget ∧
      Takes (read window (ResourceDirectory.children? window path shallow) rows offset) cost
        (entries.prune shallow) := by
  induction rows generalizing offset budget entries with
  | zero =>
    obtain ⟨rfl, rfl⟩ := Prod.mk.inj (Except.ok.inj h)
    exact ⟨0, Nat.le_of_eq (Nat.zero_add _), fun spare => by rw [Nat.zero_add]; rfl⟩
  | succ rows ih =>
    cases budget with
    | zero =>
      obtain ⟨_, rfl⟩ := Prod.mk.inj (Except.ok.inj h)
      exact absurd hleft (Nat.lt_irrefl 0)
    | succ budget =>
      obtain ⟨hinside, hstep⟩ := (read_succ_eq_ok ..).mp h
      cases hstep with
      | data hid hplain hdata hrest =>
        obtain ⟨cost, hcost, htakes⟩ := ih _ _ _ hrest
        exact ⟨cost + 1, by omega,
          takes_succ hinside fun spare => .data hid hplain hdata (htakes spare)⟩
      | leftOut hid hmarked hnone hrest =>
        obtain ⟨cost, hcost, htakes⟩ := ih _ _ _ hrest
        obtain rfl := ResourceDirectory.children?_eq_none.mp hnone
        obtain rfl : shallow = 0 := Nat.le_zero.mp hle
        exact ⟨cost + 1, by omega,
          takes_succ hinside fun spare => .leftOut hid hmarked rfl (htakes spare)⟩
      | @entered id target child inner rest spent left hid hmarked hsome hinner hrest =>
        obtain ⟨cost, hcost, htakes⟩ := ih _ _ _ hrest
        obtain ⟨less, rfl, rfl⟩ := ResourceDirectory.children?_eq_some.mp hsome
        cases shallow with
        | zero =>
          obtain ⟨innerCost, hinnerCost, _⟩ :=
            hchild less rfl 0 (Nat.zero_le _) _ _ _ _ hinner (by omega)
          exact ⟨cost + 1, by omega,
            takes_succ hinside fun spare => .leftOut hid hmarked rfl (htakes spare)⟩
        | succ fewer =>
          obtain ⟨innerCost, hinnerCost, hinnerTakes⟩ :=
            hchild less rfl fewer (Nat.le_of_succ_le_succ hle) _ _ _ _ hinner (by omega)
          refine ⟨innerCost + cost + 1, by omega, takes_succ hinside fun spare => ?_⟩
          have hinner' := hinnerTakes (cost + spare)
          rw [← Nat.add_assoc] at hinner'
          exact .entered hid hmarked rfl hinner' (htakes spare)

namespace ResourceDirectory

/-- A walk that does not spend its whole budget takes no more for fewer levels of directories, and
gives the same tree up to them. -/
theorem takes_prune_of_walk {window : Bytes} {deep shallow : Nat} (hle : shallow ≤ deep)
    {path : List Nat} {offset budget left : Nat} {directory : ResourceDirectory}
    (h : walk window deep path offset budget = .ok (directory, left)) (hleft : 0 < left) :
    ∃ cost, cost + left ≤ budget ∧
      Takes (walk window shallow path offset) cost (directory.prune shallow) := by
  induction deep generalizing shallow path offset budget directory left with
  | zero =>
    obtain ⟨hfresh, hinside, htable, hread⟩ := (walk_eq_ok ..).mp h
    obtain ⟨cost, hcost, htakes⟩ :=
      ResourceEntries.takes_prune_of_read hle (fun _ hless => nomatch hless) _ _ _ _ _ hread hleft
    exact ⟨cost, hcost, fun spare =>
      (walk_eq_ok ..).mpr ⟨hfresh, hinside, htable, htakes spare⟩⟩
  | succ deep ih =>
    obtain ⟨hfresh, hinside, htable, hread⟩ := (walk_eq_ok ..).mp h
    obtain ⟨cost, hcost, htakes⟩ := ResourceEntries.takes_prune_of_read hle
      (fun less hless fewer hfewer _ _ _ _ hwalk hrest => by
        obtain rfl := Nat.succ.inj hless
        exact ih hfewer hwalk hrest) _ _ _ _ _ hread hleft
    exact ⟨cost, hcost, fun spare =>
      (walk_eq_ok ..).mpr ⟨hfresh, hinside, htable, htakes spare⟩⟩

/-- The limit on entries is enough for the walk: the walk takes no more than that, and all that a
larger limit would add would be left over. -/
def EntriesSuffice (window : DirectoryWindow) (limits : Limits) : Prop :=
  ∃ cost ≤ limits.resourceEntries, ∃ root,
    Takes (walk window.data (limits.resourceDepth - 1) [] 0) cost root

/-- The limit is enough where an entry is left over. -/
theorem entriesSuffice_of_left {window : DirectoryWindow} {limits : Limits}
    {root : ResourceDirectory} {left : Nat}
    (h : walk window.data (limits.resourceDepth - 1) [] 0 limits.resourceEntries = .ok (root, left))
    (hleft : 0 < left) : EntriesSuffice window limits := by
  obtain ⟨cost, hcost, htakes⟩ := takes_prune_of_walk (Nat.le_refl _) h hleft
  exact ⟨cost, by omega, _, htakes⟩

/-- A smaller limit on the depth leaves out the resources with longer paths. -/
theorem read_shallow (window : DirectoryWindow) (limits : Limits) (depth : Nat)
    (hdepth : depth ≤ limits.resourceDepth) (whole : ResourceDirectory)
    (hread : read window limits = .ok whole) (hentries : EntriesSuffice window limits) :
    ∃ cut, read window { limits with resourceDepth := depth } = .ok cut ∧
      cut.leaves = whole.leaves.filter (·.path.length ≤ max 1 depth) := by
  obtain ⟨cost, hcost, root, htakes⟩ := hentries
  obtain ⟨spare, hspare⟩ := Nat.exists_eq_add_of_le hcost
  obtain rfl : root = whole := by
    rw [read, hspare, htakes spare] at hread
    exact Except.ok.inj hread
  obtain ⟨less, hless, hshallow⟩ := takes_prune_of_walk
    (Nat.sub_le_sub_right hdepth 1) (htakes 1) Nat.one_pos
  refine ⟨root.prune (depth - 1), ?_, ?_⟩
  · obtain ⟨rest, hrest⟩ := Nat.exists_eq_add_of_le (show less ≤ limits.resourceEntries by omega)
    rw [read]
    dsimp only
    rw [hrest, hshallow rest]
    rfl
  · have hlength : ([] : List ResourceId).length + 1 + (depth - 1) = max 1 depth := by
      rw [List.length_nil]
      omega
    rw [leaves, prune, ResourceEntries.leaves_prune, hlength, leaves]

/-- The bytes of a directory of two entries. Both lead to the data entry at 56, the second by way of
the directory at 32. -/
def unevenOctets : List UInt8 :=
  ResourceTable.octets ⟨0, 0, 0, 0⟩ 0 2 ++ ResourceRow.octets ⟨5, 56⟩ ++
    ResourceRow.octets ⟨3, 0x80000020⟩ ++ ResourceTable.octets ⟨0, 0, 0, 0⟩ 0 1 ++
    ResourceRow.octets ⟨0x409, 56⟩ ++ ResourceData.octets ⟨0x3100, 4, 0, 0⟩

/-- The tree of `unevenOctets`. -/
def unevenTree : ResourceDirectory where
  table := ⟨0, 0, 0, 0⟩
  entries :=
    .data (.number 5) ⟨0x3100, 4, 0, 0⟩ (.directory (.number 3) ⟨0, 0, 0, 0⟩
      (.data (.number 0x409) ⟨0x3100, 4, 0, 0⟩ .nil) .nil)

/-- With no level allowed under the root, the resource in the root is left. -/
theorem read_shallow_uneven :
    read ⟨0x3000, .ofOctets unevenOctets⟩ Limits.unbounded = .ok unevenTree ∧
      EntriesSuffice ⟨0x3000, .ofOctets unevenOctets⟩ Limits.unbounded ∧
      ∃ cut, read ⟨0x3000, .ofOctets unevenOctets⟩ { Limits.unbounded with resourceDepth := 0 } =
          .ok cut ∧ cut.leaves = [⟨[.number 5], ⟨0x3100, 4, 0, 0⟩⟩] := by
  have hread : read ⟨0x3000, .ofOctets unevenOctets⟩ Limits.unbounded = .ok unevenTree := by rfl
  have hwalk : walk (.ofOctets unevenOctets) (Limits.unbounded.resourceDepth - 1) [] 0
      Limits.unbounded.resourceEntries = .ok (unevenTree, Limits.largest - 3) := by rfl
  have hentries : EntriesSuffice ⟨0x3000, .ofOctets unevenOctets⟩ Limits.unbounded :=
    entriesSuffice_of_left hwalk (by decide)
  exact ⟨hread, hentries, read_shallow _ Limits.unbounded 0 (by decide) unevenTree hread hentries⟩

end ResourceDirectory

end PeImage
