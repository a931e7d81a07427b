import Mathlib.Data.List.Infix
import PeImage.Proofs.Resource.Exactness

/-!
# A smaller budget cuts the walk short

The walk meets the entries of a tree depth first, and its budget is one count for all levels. With
less budget it does the same steps until the budget is spent, and then leaves every directory that
is open without a fault. So what it reads is the start of what it reads with more, and it fails
only where it fails with more as well. `Shortened` says this of any two runs whose budgets differ
by a fixed number; it is kept by every step of the walk.
-/

namespace PeImage

/-- What an entry leads to, without what is inside it. -/
inductive ResourceNode
  | data (data : ResourceData)
  | directory (table : ResourceTable)
  deriving DecidableEq, Repr

/-- An entry as a walk meets it, with the number of directories around its own. -/
structure ResourceVisit where
  depth : Nat
  id : ResourceId
  node : ResourceNode
  deriving DecidableEq, Repr

/-- The entries at all levels in the order of a depth-first walk. -/
def ResourceEntries.preorder (depth : Nat) : ResourceEntries → List ResourceVisit
  | nil => []
  | data id leaf rest => ⟨depth, id, .data leaf⟩ :: rest.preorder depth
  | directory id table children rest =>
    ⟨depth, id, .directory table⟩ :: (children.preorder (depth + 1) ++ rest.preorder depth)

/-- The entries of a tree in the order of a depth-first walk. -/
def ResourceDirectory.preorder (root : ResourceDirectory) : List ResourceVisit :=
  root.entries.preorder 0

/-- The first entries are the second ones up to some moment of the walk: among the entries, inside
a directory whose entries are cut off together with all that follows it, or behind a directory that
is there as a whole. -/
inductive ResourceEntries.CutFrom : ResourceEntries → ResourceEntries → Prop
  | nil (whole : ResourceEntries) : CutFrom .nil whole
  | data {id : ResourceId} {leaf : ResourceData} {cut rest : ResourceEntries}
      (hrest : CutFrom cut rest) : CutFrom (.data id leaf cut) (.data id leaf rest)
  | inside {id : ResourceId} {table : ResourceTable} {cut children rest : ResourceEntries}
      (hchildren : CutFrom cut children) :
      CutFrom (.directory id table cut .nil) (.directory id table children rest)
  | behind {id : ResourceId} {table : ResourceTable} {children cut rest : ResourceEntries}
      (hrest : CutFrom cut rest) :
      CutFrom (.directory id table children cut) (.directory id table children rest)

/-- The first directory is the second one up to some moment of the walk. -/
structure ResourceDirectory.CutFrom (cut whole : ResourceDirectory) : Prop where
  table : cut.table = whole.table
  entries : cut.entries.CutFrom whole.entries

namespace ResourceEntries.CutFrom

/-- Nothing has to be cut off. -/
theorem refl (entries : ResourceEntries) : CutFrom entries entries := by
  induction entries with
  | nil => exact .nil _
  | data _ _ _ ih => exact .data ih
  | directory _ _ _ _ _ ih => exact .behind ih

/-- The walk through cut entries is the start of the walk through the whole ones. -/
theorem preorder_prefix {cut whole : ResourceEntries} (h : CutFrom cut whole) (depth : Nat) :
    cut.preorder depth <+: whole.preorder depth := by
  induction h generalizing depth with
  | nil => exact List.nil_prefix
  | data _ ih => exact List.cons_prefix_cons.mpr ⟨rfl, ih depth⟩
  | inside _ ih =>
    refine List.cons_prefix_cons.mpr ⟨rfl, ?_⟩
    rw [preorder, List.append_nil]
    exact (ih (depth + 1)).trans (List.prefix_append _ _)
  | behind _ ih =>
    exact List.cons_prefix_cons.mpr ⟨rfl, (List.prefix_append_right_inj _).mpr (ih depth)⟩

/-- The resources of cut entries are the first ones of the whole entries. -/
theorem leaves_prefix {cut whole : ResourceEntries} (h : CutFrom cut whole)
    (around : List ResourceId) : cut.leaves around <+: whole.leaves around := by
  induction h generalizing around with
  | nil => exact List.nil_prefix
  | data _ ih => exact List.cons_prefix_cons.mpr ⟨rfl, ih around⟩
  | inside _ ih =>
    rw [leaves, leaves, leaves, List.append_nil]
    exact (ih _).trans (List.prefix_append _ _)
  | behind _ ih => exact (List.prefix_append_right_inj _).mpr (ih around)

end ResourceEntries.CutFrom

/-- How a run relates to one that is the same but starts with `extra` more budget. It gives the same
with that much less left, or has spent its budget before the other run was through, which then may
have given more or failed later; and it fails only where the other does. -/
inductive Shortened {α : Type} (CutFrom : α → α → Prop) (extra : Nat) :
    Except Fault (α × Nat) → Except Fault (α × Nat) → Prop
  | same (value : α) (left : Nat) :
      Shortened CutFrom extra (.ok (value, left)) (.ok (value, left + extra))
  | spent {cut whole : α} (left : Nat) (hcut : CutFrom cut whole) :
      Shortened CutFrom extra (.ok (cut, 0)) (.ok (whole, left))
  | spentBeforeFault (cut : α) (fault : Fault) :
      Shortened CutFrom extra (.ok (cut, 0)) (.error fault)
  | fault (fault : Fault) : Shortened CutFrom extra (.error fault) (.error fault)

namespace Shortened

variable {α β : Type} {cutα : α → α → Prop} {cutβ : β → β → Prop} {extra : Nat}

/-- A step that follows a shortened one. What has to be shown is that it shortens what comes from
the same value, and that it gives something at once where no budget is left. -/
theorem bind {short long : Except Fault (α × Nat)} {next : α × Nat → Except Fault (β × Nat)}
    (h : Shortened cutα extra short long)
    (hsame : ∀ value left, Shortened cutβ extra (next (value, left)) (next (value, left + extra)))
    (hspent : ∀ cut whole left, cutα cut whole →
      Shortened cutβ extra (next (cut, 0)) (next (whole, left)))
    (hfault : ∀ cut, ∃ value, next (cut, 0) = .ok (value, 0)) :
    Shortened cutβ extra (short >>= next) (long >>= next) := by
  cases h with
  | same value left => exact hsame value left
  | spent left hcut => exact hspent _ _ left hcut
  | spentBeforeFault cut fault =>
    obtain ⟨value, hvalue⟩ := hfault cut
    have hshort : (Except.ok (cut, 0) >>= next) = .ok (value, 0) := hvalue
    rw [hshort]
    exact .spentBeforeFault value fault
  | fault fault => exact .fault fault

/-- What is made of a value that is shortened is shortened itself. -/
theorem map {short long : Except Fault (α × Nat)} (wrap : α → β)
    (h : Shortened cutα extra short long)
    (hwrap : ∀ cut whole, cutα cut whole → cutβ (wrap cut) (wrap whole)) :
    Shortened cutβ extra (short >>= fun (value, left) => pure (wrap value, left))
      (long >>= fun (value, left) => pure (wrap value, left)) := by
  refine h.bind (fun value left => .same _ _) ?_ fun cut => ⟨_, rfl⟩
  exact fun cut whole left hcut => .spent left (hwrap cut whole hcut)

/-- A run that has spent its budget at the start is shortened from any other. -/
theorem of_spent {cut : α} {long : Except Fault (α × Nat)}
    (hcut : ∀ whole left, long = .ok (whole, left) → cutα cut whole) :
    Shortened cutα extra (.ok (cut, 0)) long := by
  cases hlong : long with
  | ok result => exact .spent result.2 (hcut result.1 result.2 hlong)
  | error fault => exact .spentBeforeFault cut fault

end Shortened

/-- Without budget no row is read. -/
theorem ResourceEntries.read_zero (window : Bytes)
    (child? : Option (ResourceReader ResourceDirectory)) (rows offset : Nat) :
    read window child? rows offset 0 = .ok (.nil, 0) := by
  cases rows <;> rfl

/-- Rows are shortened if the directories among them are. -/
theorem ResourceEntries.read_shortened (window : Bytes)
    (child? : Option (ResourceReader ResourceDirectory)) (extra : Nat)
    (hchild : ∀ child, child? = some child → ∀ target budget,
      Shortened ResourceDirectory.CutFrom extra (child target budget) (child target (budget + extra)))
    (rows offset budget : Nat) :
    Shortened CutFrom extra (read window child? rows offset budget)
      (read window child? rows offset (budget + extra)) := by
  induction rows generalizing offset budget with
  | zero => exact .same nil budget
  | succ rows ih =>
    cases budget with
    | zero =>
      rw [read_zero]
      exact .of_spent fun whole _ _ => .nil whole
    | succ budget =>
      rw [Nat.add_right_comm, read, read]
      dsimp only
      split
      · exact .fault _
      · cases ResourceId.read window (ResourceRow.readAt window offset).id with
        | error fault => exact .fault fault
        | ok id =>
          rw [ok_bind, ok_bind]
          cases markedOffset? (ResourceRow.readAt window offset).target with
          | none =>
            cases ResourceData.read window (ResourceRow.readAt window offset).target.toNat with
            | error fault => exact .fault fault
            | ok leaf => exact (ih _ budget).map (data id leaf) fun _ _ => .data
          | some target =>
            cases child? with
            | none => exact ih _ budget
            | some child =>
              refine (hchild child rfl target budget).bind ?_ ?_ ?_
              · intro inner left
                exact (ih _ left).map (directory id inner.table inner.entries) fun _ _ => .behind
              · intro cut whole left hcut
                dsimp only
                rw [read_zero, ok_bind]
                refine .of_spent fun entries after hentries => ?_
                obtain ⟨⟨rest, left⟩, _, hrest⟩ := bind_eq_ok.mp hentries
                obtain ⟨rfl, rfl⟩ := Prod.mk.inj (Except.ok.inj hrest)
                rw [hcut.table]
                exact .inside hcut.entries
              · intro cut
                dsimp only
                rw [read_zero, ok_bind]
                exact ⟨_, rfl⟩

namespace ResourceDirectory

/-- A directory is shortened if those in it are. -/
theorem readTable_shortened (window : Bytes) (child? : Option Walker) (extra : Nat)
    (hchild : ∀ child, child? = some child → ∀ path target budget,
      Shortened CutFrom extra (child path target budget) (child path target (budget + extra)))
    (path : List Nat) (offset budget : Nat) :
    Shortened CutFrom extra (readTable window child? path offset budget)
      (readTable window child? path offset (budget + extra)) := by
  unfold readTable
  split
  · exact .fault _
  · split
    · exact .fault _
    · refine (ResourceEntries.read_shortened window _ extra ?_ _ _ budget).map
        (ResourceDirectory.mk (ResourceTable.readAt window offset)) fun _ _ hcut => ⟨rfl, hcut⟩
      intro reader hreader target budget
      obtain ⟨child, hsome, rfl⟩ := Option.map_eq_some_iff.mp hreader
      exact hchild child hsome (offset :: path) target budget

/-- The walk is shortened by a smaller budget, whatever levels are allowed. -/
theorem walk_shortened (window : Bytes) (below : Nat) (path : List Nat)
    (offset budget extra : Nat) :
    Shortened CutFrom extra (walk window below path offset budget)
      (walk window below path offset (budget + extra)) := by
  induction below generalizing path offset budget with
  | zero => exact readTable_shortened window none extra (fun child h => nomatch h) path offset budget
  | succ below ih =>
    refine readTable_shortened window _ extra (fun child hchild path target budget => ?_) _ _ _
    obtain rfl := Option.some.inj hchild
    exact ih path target budget

/-- A smaller limit on entries only cuts the walk short. Where the whole tree is read, its start is
read under the smaller limit, in the order of the walk, and if anything is missing then the budget
has been spent; and a fault under the smaller limit is the fault under the larger one. -/
theorem read_take_entries (window : DirectoryWindow) (limits : Limits) (fewer : Nat)
    (h : fewer ≤ limits.resourceEntries) :
    (∀ whole, read window limits = .ok whole →
      ∃ cut, read window { limits with resourceEntries := fewer } = .ok cut ∧
        cut.table = whole.table ∧ cut.preorder <+: whole.preorder ∧ cut.leaves <+: whole.leaves ∧
        (cut = whole ∨
          walk window.data (limits.resourceDepth - 1) [] 0 fewer = .ok (cut, 0))) ∧
    ∀ fault, read window { limits with resourceEntries := fewer } = .error fault →
      read window limits = .error fault := by
  obtain ⟨extra, hextra⟩ := Nat.exists_eq_add_of_le h
  have hwalk := walk_shortened window.data (limits.resourceDepth - 1) [] 0 fewer extra
  unfold read
  rw [hextra]
  dsimp only
  generalize walk window.data (limits.resourceDepth - 1) [] 0 fewer = short at hwalk ⊢
  generalize walk window.data (limits.resourceDepth - 1) [] 0 (fewer + extra) = long at hwalk ⊢
  cases hwalk with
  | same value left =>
    refine ⟨fun whole hwhole => ?_, fun fault hfault => nomatch hfault⟩
    obtain rfl : value = whole := Except.ok.inj hwhole
    exact ⟨value, rfl, rfl, List.prefix_rfl, List.prefix_rfl, Or.inl rfl⟩
  | @spent cut value left hcut =>
    refine ⟨fun whole hwhole => ?_, fun fault hfault => nomatch hfault⟩
    obtain rfl : value = whole := Except.ok.inj hwhole
    exact ⟨cut, rfl, hcut.table, hcut.entries.preorder_prefix 0, hcut.entries.leaves_prefix [],
      Or.inr rfl⟩
  | spentBeforeFault cut fault =>
    exact ⟨fun whole hwhole => (nomatch hwhole), fun other hother => nomatch hother⟩
  | fault fault => exact ⟨fun whole hwhole => (nomatch hwhole), fun other hother => hother⟩

/-- The tree of `sharedOctets` without the last of its four entries. -/
def sharedTreeStart : ResourceDirectory where
  table := ⟨0, 0x5F5E1000, 4, 0⟩
  entries := .directory (.name "A") ⟨0, 0, 0, 0⟩ (.data (.number 0x409) ⟨0x3100, 4, 0, 0⟩ .nil)
    (.directory (.number 3) ⟨0, 0, 0, 0⟩ .nil .nil)

/-- With a budget of three entries the second of two directories is left empty. -/
theorem read_take_entries_sharedTree :
    read ⟨0x3000, Bytes.ofOctets sharedOctets⟩ Limits.unbounded = .ok sharedTree ∧
      read ⟨0x3000, Bytes.ofOctets sharedOctets⟩ { Limits.unbounded with resourceEntries := 3 } =
        .ok sharedTreeStart ∧
      sharedTreeStart.preorder <+: sharedTree.preorder ∧
      sharedTreeStart.leaves <+: sharedTree.leaves := by
  have hwhole : read ⟨0x3000, Bytes.ofOctets sharedOctets⟩ Limits.unbounded = .ok sharedTree := by
    rfl
  have hstart : read ⟨0x3000, Bytes.ofOctets sharedOctets⟩
      { Limits.unbounded with resourceEntries := 3 } = .ok sharedTreeStart := by rfl
  obtain ⟨hcut, _⟩ := read_take_entries ⟨0x3000, Bytes.ofOctets sharedOctets⟩ Limits.unbounded 3
    (by decide)
  obtain ⟨cut, hread, _, hpreorder, hleaves, _⟩ := hcut sharedTree hwhole
  obtain rfl : sharedTreeStart = cut := Except.ok.inj (hstart.symm.trans hread)
  exact ⟨hwhole, hstart, hpreorder, hleaves⟩

end ResourceDirectory

end PeImage
