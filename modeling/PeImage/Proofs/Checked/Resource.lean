import PeImage.Proofs.Checked.Cursor
import PeImage.Proofs.Resource.Walk

/-!
# Walking resources with checked steps

The walk over resource directories as a machine. Its state has the budget of entries and the path of
directories that are open, which is pushed when the rows of a directory are read and popped behind
them; a fault leaves the path as it is. The state also keeps a history, which no step depends on:
how often a directory was entered, and every path there has been.

The machine follows the exact walk step by step and meets no trap. Each entry into a directory but
the first is paid for by a row, so the sum of the entries into directories and of what is left of
the budget grows by one at most; and a path is extended only by a directory that is inside the
window and not on the path yet.
-/

namespace PeImage.Checked

variable {α β : Type}

/-- The state of a walk. -/
structure ResourceWalker where
  /-- The rows that may still be read. -/
  budget : Nat
  /-- The offsets of the open directories, the innermost first. -/
  path : List Nat
  /-- How often a directory has been entered. -/
  entered : Nat
  /-- All paths there have been, the latest first. -/
  paths : List (List Nat)

namespace ResourceWalker

/-- Before the first directory is entered. -/
def start (budget : Nat) : ResourceWalker := ⟨budget, [], 0, [[]]⟩

/-- The state with another path. -/
def follow (walker : ResourceWalker) (path : List Nat) : ResourceWalker :=
  { walker with path := path, paths := path :: walker.paths }

end ResourceWalker

/-- A computation on the state of a walk. The state is there also after a failure. -/
abbrev Walk (α : Type) := EStateM Stop ResourceWalker α

namespace Walk

/-- A computation that does not look at the state. -/
def lift (computation : Checked α) : Walk α := fun walker =>
  match computation with
  | .ok value => .ok value walker
  | .error stop => .error stop walker

/-- Counts the directory that is entered. -/
def enter : Walk Unit := modify fun walker => { walker with entered := walker.entered + 1 }

/-- Opens a directory. -/
def push (offset : Nat) : Walk Unit := modify fun walker => walker.follow (offset :: walker.path)

/-- Closes the innermost directory. -/
def pop : Walk Unit := modify fun walker => walker.follow walker.path.tail

/-- Pays for a row. -/
def spend : Walk Unit := do
  let left ← lift (sub (← get).budget 1)
  modify fun walker => { walker with budget := left }

/-- A value is lifted without a change. -/
theorem lift_ok (value : α) (walker : ResourceWalker) : lift (.ok value) walker = .ok value walker :=
  rfl

/-- A fault is lifted without a change. -/
theorem lift_refuse (fault : Fault) (walker : ResourceWalker) :
    lift (refuse fault : Checked α) walker = .error (.fault fault) walker := rfl

/-- A row is paid for where the budget is not spent. -/
theorem spend_eq {walker : ResourceWalker} {left : Nat} (h : walker.budget = left + 1) :
    spend walker = .ok () { walker with budget := left } := by
  have hleft : sub walker.budget 1 = .ok left := by
    rw [h]
    exact sub_eq (Nat.le_add_left 1 left)
  rw [spend, bind_of_ok (get_eq walker), hleft, bind_of_ok (lift_ok left walker)]
  rfl

end Walk

open Walk
open ResourceDirectory (OpenPath)

/-- What a reader gives at an offset. -/
def readAt (reader : Reader α) (data : Bytes) (offset : Nat) : Checked α := do
  let cursor ← seek data offset
  return (← reader cursor).1

/-- The fixed part of a directory, apart from the numbers of its rows. -/
def resourceTable : Reader ResourceTable := do
  let characteristics ← word32
  let timeDateStamp ← word32
  let majorVersion ← word16
  let minorVersion ← word16
  return { characteristics, timeDateStamp, majorVersion, minorVersion }

/-- The fixed part of a directory with the number of rows with names and of those with numbers. -/
def resourceHead : Reader (ResourceTable × UInt16 × UInt16) := do
  let table ← resourceTable
  let named ← word16
  let numbered ← word16
  return (table, named, numbered)

/-- The next row. -/
def resourceRow : Reader ResourceRow := do
  let id ← word32
  let target ← word32
  return { id, target }

/-- The next data entry. -/
def resourceData : Reader ResourceData := do
  let rva ← word32
  let size ← word32
  let codePage ← word32
  let reserved ← word32
  return { rva, size, codePage, reserved }

/-- The identifier that the first word of a row stands for. -/
def resourceId (window : Bytes) (word : UInt32) : Checked ResourceId :=
  match markedOffset? word with
  | none => .ok (.number word)
  | some offset => return .name (← readAt wideText window offset)

mutual

/-- The directory at an offset, with `depth` directories around it. -/
def resourceDirectory (window : Bytes) (limit offset depth : Nat) : Walk ResourceDirectory := do
  enter
  if offset ∈ (← get).path then lift (refuse (.resourceCycle offset))
  else
    let cursor ← lift (seek window offset)
    let ((table, named, numbered), behind) ← lift (resourceHead cursor)
    push offset
    let count ← lift (add named.toNat numbered.toNat)
    let entries ← resourceRows window limit depth count behind
    pop
    return ⟨table, entries⟩
termination_by (limit - depth, 1, 0)

/-- The entries of the rows behind a cursor, in a directory with `depth` directories around it. -/
def resourceRows (window : Bytes) (limit depth : Nat) : (count : Nat) → Cursor → Walk ResourceEntries
  | 0, _ => return .nil
  | count + 1, cursor => do
    if (← get).budget = 0 then return .nil
    else
      spend
      let (row, behind) ← lift (resourceRow cursor)
      let id ← lift (resourceId window row.id)
      match markedOffset? row.target with
      | none =>
        let data ← lift (readAt resourceData window row.target.toNat)
        let rest ← resourceRows window limit depth count behind
        return .data id data rest
      | some target =>
        let _ ← lift (fits (depth + 1))
        if _hdeep : limit ≤ depth + 1 then resourceRows window limit depth count behind
        else
          let inner ← resourceDirectory window limit target (depth + 1)
          let rest ← resourceRows window limit depth count behind
          return .directory id inner.table inner.entries rest
termination_by count => (limit - depth, 0, count)

end

/-- All paths there have been, the present one among them, are duplicate-free and inside the
window. -/
structure ResourceWalker.IsOpen (window : Bytes) (walker : ResourceWalker) : Prop where
  path : OpenPath window walker.path
  paths : ∀ path ∈ walker.paths, OpenPath window path

/-- The walk starts with no directory open. -/
theorem ResourceWalker.isOpen_start (window : Bytes) (budget : Nat) :
    (start budget).IsOpen window where
  path := .nil window
  paths := by
    intro path hpath
    obtain rfl := List.mem_singleton.mp hpath
    exact .nil window

/-- Taking a path that is open keeps all paths open. -/
theorem ResourceWalker.IsOpen.follow {window : Bytes} {walker : ResourceWalker}
    (h : walker.IsOpen window) {path : List Nat} (hpath : OpenPath window path) :
    (walker.follow path).IsOpen window :=
  ⟨hpath, List.forall_mem_cons.mpr ⟨hpath, h.paths⟩⟩

/-- What every part of a walk keeps, up to `extra` entries into directories that no row has paid
for. -/
structure ResourceWalker.Kept (window : Bytes) (extra : Nat) (before after : ResourceWalker) :
    Prop where
  entered : after.entered + after.budget ≤ before.entered + before.budget + extra
  isOpen : before.IsOpen window → after.IsOpen window

/-- A part that does nothing. -/
theorem ResourceWalker.Kept.refl (window : Bytes) (extra : Nat) (walker : ResourceWalker) :
    Kept window extra walker walker := ⟨Nat.le_add_right _ _, id⟩

/-- A part is followed by one whose entries are all paid for. -/
theorem ResourceWalker.Kept.trans {window : Bytes} {extra : Nat}
    {before middle after : ResourceWalker} (h : Kept window extra before middle)
    (hnext : Kept window 0 middle after) : Kept window extra before after where
  entered := by
    have hfirst := h.entered
    have hsecond := hnext.entered
    omega
  isOpen hopen := hnext.isOpen (h.isOpen hopen)

/-- A part of a walk follows an exact reader: it ends with the same value, the budget that the
reader leaves and the path it began with, or with the same fault. -/
inductive Follows (window : Bytes) (extra : Nat) (before : ResourceWalker) :
    EStateM.Result Stop ResourceWalker α → Except Fault (α × Nat) → Prop
  | value {value : α} {after : ResourceWalker} (hpath : after.path = before.path)
      (hkept : ResourceWalker.Kept window extra before after) :
      Follows window extra before (.ok value after) (.ok (value, after.budget))
  | fault {fault : Fault} {after : ResourceWalker}
      (hkept : ResourceWalker.Kept window extra before after) :
      Follows window extra before (.error (.fault fault) after) (.error fault)

namespace Follows

variable {window : Bytes} {extra : Nat} {before : ResourceWalker}

/-- A part of a walk and one behind it follow two readers behind each other. -/
theorem bind {part : Walk α} {next : α → Walk β} {reader : Except Fault (α × Nat)}
    {behind : α × Nat → Except Fault (β × Nat)}
    (h : Follows window extra before (part before) reader)
    (hnext : ∀ found after, after.path = before.path →
      Follows window 0 after (next found after) (behind (found, after.budget))) :
    Follows window extra before ((part >>= next) before) (reader >>= behind) := by
  generalize hresult : part before = result at h
  cases h with
  | fault hkept =>
    rw [bind_of_error hresult]
    exact .fault hkept
  | @value found middle hpath hkept =>
    rw [bind_of_ok hresult, ok_bind]
    have hrest := hnext found middle hpath
    generalize next found middle = rest at hrest
    generalize behind (found, middle.budget) = exact at hrest
    cases hrest with
    | value hpath' hkept' => exact .value (hpath'.trans hpath) (hkept.trans hkept')
    | fault hkept' => exact .fault (hkept.trans hkept')

/-- A value that is made of another one. -/
theorem map {part : Walk α} {reader : Except Fault (α × Nat)} (change : α → β)
    (h : Follows window extra before (part before) reader) :
    Follows window extra before ((part >>= fun found => pure (change found)) before)
      (reader >>= fun read => pure (change read.1, read.2)) :=
  h.bind fun _ _ _ => .value rfl (.refl ..)

/-- A part of a walk that begins with a reading of the window which does not look at the state. -/
theorem reading {γ : Type} {result : Except Fault γ} {next : γ → Walk β}
    {behind : γ → Except Fault (β × Nat)}
    (h : ∀ value, Follows window extra before (next value before) (behind value)) :
    Follows window extra before ((lift (ofResult result) >>= next) before) (result >>= behind) := by
  cases result with
  | error fault => exact .fault (.refl ..)
  | ok value => exact h value

/-- A part of a walk that begins with a step to another state. -/
theorem after_step {less : Nat} (middle : ResourceWalker)
    {result : EStateM.Result Stop ResourceWalker α} {reader : Except Fault (α × Nat)}
    (h : Follows window less middle result reader) (hpath : middle.path = before.path)
    (hentered : middle.entered + middle.budget + less ≤ before.entered + before.budget + extra)
    (hopen : before.IsOpen window → middle.IsOpen window) :
    Follows window extra before result reader := by
  have hkept {after : ResourceWalker} (hk : ResourceWalker.Kept window less middle after) :
      ResourceWalker.Kept window extra before after :=
    ⟨Nat.le_trans hk.entered hentered, fun h => hk.isOpen (hopen h)⟩
  cases h with
  | value hpath' hk => exact .value (hpath'.trans hpath) (hkept hk)
  | fault hk => exact .fault (hkept hk)

/-- What begins with a row that is paid for may enter one directory more. -/
theorem paid {left : Nat} {result : EStateM.Result Stop ResourceWalker α}
    {reader : Except Fault (α × Nat)} (hbudget : before.budget = left + 1)
    (h : Follows window 1 { before with budget := left } result reader) :
    Follows window 0 before result reader :=
  h.after_step _ rfl (by dsimp only; omega) fun hopen => ⟨hopen.path, hopen.paths⟩

/-- What is paid for may be followed by more. -/
theorem unpaid {result : EStateM.Result Stop ResourceWalker α} {reader : Except Fault (α × Nat)}
    (h : Follows window 0 before result reader) : Follows window 1 before result reader :=
  h.after_step before rfl (by omega) id

/-- The rows of a directory are followed by closing it, which gives back the path before it. -/
theorem closing {part : Walk ResourceEntries} {reader : Except Fault (ResourceEntries × Nat)}
    {pushed : ResourceWalker} {offset : Nat} (h : Follows window 0 pushed (part pushed) reader)
    (hpushed : ResourceWalker.Kept window extra before pushed)
    (hpath : pushed.path = offset :: before.path) (table : ResourceTable) :
    Follows window extra before
      ((part >>= fun entries => pop >>= fun _ => pure (ResourceDirectory.mk table entries)) pushed)
      (reader >>= fun read => .ok (⟨table, read.1⟩, read.2)) := by
  generalize hresult : part pushed = result at h
  cases h with
  | fault hkept =>
    rw [bind_of_error hresult]
    exact .fault (hpushed.trans hkept)
  | @value entries after hsame hkept =>
    have hclosed : after.path.tail = before.path := by
      rw [hsame, hpath, List.tail_cons]
    have hpop : pop after = .ok () (after.follow after.path.tail) := rfl
    have hleft := hpushed.trans hkept
    rw [bind_of_ok hresult, bind_of_ok hpop]
    exact .value hclosed ⟨hleft.entered, fun hopen =>
      (hleft.isOpen hopen).follow (hleft.isOpen hopen).path.tail⟩

end Follows

/-- A record is read at an offset as a whole or not at all. -/
theorem Reads.readAt_eq {size : Nat} {value : Bytes → Nat → α} {reader : Reader α}
    (h : Reads size value reader) (data : Bytes) (hsize : data.size ≤ Limits.largest)
    (offset : Nat) :
    readAt reader data offset =
      if offset + size ≤ data.size then .ok (value data offset) else refuse .outOfBounds := by
  unfold readAt seek
  by_cases hoffset : data.size < offset
  · rw [if_pos hoffset, if_neg (by omega)]
    rfl
  · rw [if_neg hoffset, ok_bind]
    split
    · rename_i hinside
      rw [h.inside ⟨data, offset⟩ hsize hinside]
      rfl
    · rename_i hcut
      rw [h.cut ⟨data, offset⟩ hsize (Nat.le_of_not_lt hoffset) (Nat.lt_of_not_le hcut)]
      rfl

/-- A row is read as a whole or not at all. -/
theorem reads_resourceRow : Reads ResourceRow.byteSize ResourceRow.readAt resourceRow :=
  reads_word32.bind fun _ => reads_word32.bind fun _ => .pure _

/-- A data entry is read as a whole or not at all. -/
theorem reads_resourceData : Reads ResourceData.byteSize ResourceData.readAt resourceData :=
  reads_word32.bind fun _ => reads_word32.bind fun _ => reads_word32.bind fun _ =>
    reads_word32.bind fun _ => .pure _

/-- The fixed part of a directory without its numbers of rows is read as a whole or not at all. -/
theorem reads_resourceTable : Reads 12 ResourceTable.readAt resourceTable :=
  reads_word32.bind fun _ => reads_word32.bind fun _ => reads_word16.bind fun _ =>
    reads_word16.bind fun _ => .pure _

/-- The fixed part of a directory is read as a whole or not at all. -/
theorem reads_resourceHead :
    Reads ResourceTable.byteSize
      (fun window offset => (ResourceTable.readAt window offset, window.u16 (offset + 12),
        window.u16 (offset + 14))) resourceHead :=
  reads_resourceTable.bind fun table => reads_word16.bind fun named =>
    reads_word16.bind fun numbered => .pure (table, named, numbered)

/-- The data entry at an offset is that of the exact reader. -/
theorem readAt_resourceData_eq (window : Bytes) (hsize : window.size ≤ Limits.largest)
    (offset : Nat) : readAt resourceData window offset =
      ofResult (ResourceData.read window offset) := by
  rw [reads_resourceData.readAt_eq window hsize, ResourceData.read]
  split <;> rfl

/-- The identifier of a row is that of the exact reader. -/
theorem resourceId_eq (window : Bytes) (hsize : window.size ≤ Limits.largest) (word : UInt32) :
    resourceId window word = ofResult (ResourceId.read window word) := by
  unfold resourceId ResourceId.read
  cases markedOffset? word with
  | none => rfl
  | some offset =>
    dsimp only
    unfold readAt seek
    by_cases hoffset : window.size < offset
    · have hnone : Utf16.countedUnits? window offset = none := by
        rw [Utf16.countedUnits?, Bytes.u16?, if_neg (by omega)]
        rfl
      rw [if_pos hoffset, hnone]
      rfl
    · rw [if_neg hoffset, ok_bind, wideText_eq ⟨window, offset⟩ hsize (Nat.le_of_not_lt hoffset),
        Cursor.wideText]
      cases Utf16.countedUnits? window offset <;> rfl

/-- Reading the rows of a directory follows the exact reader, provided that entering the directories
in them does. -/
theorem resourceRows_follows {window : Bytes} (hsize : window.size ≤ Limits.largest)
    {limit depth : Nat} (hdepth : depth + 1 ≤ Limits.largest) (path : List Nat)
    (hchild : ∀ below, limit - 1 - depth = below + 1 → ∀ target before, before.path = path →
      Follows window 1 before (resourceDirectory window limit target (depth + 1) before)
        (ResourceDirectory.walk window below path target before.budget))
    (count offset : Nat) (horder : offset ≤ window.size) (before : ResourceWalker)
    (hpath : before.path = path) :
    Follows window 0 before (resourceRows window limit depth count ⟨window, offset⟩ before)
      (ResourceEntries.read window (ResourceDirectory.children? window path (limit - 1 - depth))
        count offset before.budget) := by
  induction count generalizing offset before with
  | zero =>
    rw [resourceRows, ResourceEntries.read]
    exact .value rfl (.refl ..)
  | succ count ih =>
    rw [resourceRows, bind_of_ok (get_eq before)]
    cases hbudget : before.budget with
    | zero =>
      rw [if_pos rfl, ResourceEntries.read, ← hbudget]
      exact .value rfl (.refl ..)
    | succ left =>
      let paid : ResourceWalker := { before with budget := left }
      rw [if_neg (Nat.succ_ne_zero left), bind_of_ok (spend_eq hbudget), ResourceEntries.read]
      -- The row has been paid for, so the part behind may enter one directory.
      refine Follows.paid hbudget ?_
      by_cases hcut : window.size < offset + ResourceRow.byteSize
      · rw [reads_resourceRow.cut ⟨window, offset⟩ hsize horder hcut,
          bind_of_error (lift_refuse _ _), if_pos hcut]
        exact .fault (.refl ..)
      · have hinside := Nat.le_of_not_lt hcut
        have hrest (after : ResourceWalker) (hafter : after.path = paid.path) :=
          ih (offset + ResourceRow.byteSize) hinside after (hafter.trans hpath)
        rw [reads_resourceRow.inside ⟨window, offset⟩ hsize hinside, bind_of_ok (lift_ok _ _),
          if_neg hcut]
        dsimp only
        rw [resourceId_eq window hsize]
        refine .reading fun id => ?_
        cases markedOffset? (ResourceRow.readAt window offset).target with
        | none =>
          dsimp only
          rw [readAt_resourceData_eq window hsize]
          exact .reading fun data =>
            ((hrest paid rfl).map (ResourceEntries.data id data)).unpaid
        | some target =>
          dsimp only
          rw [fits_eq hdepth, bind_of_ok (lift_ok _ _)]
          by_cases hdeep : limit ≤ depth + 1
          · have hbelow : limit - 1 - depth = 0 := by omega
            rw [dif_pos hdeep]
            rw [hbelow] at hrest ⊢
            exact (hrest paid rfl).unpaid
          · obtain ⟨below, hbelow⟩ : ∃ below, limit - 1 - depth = below + 1 :=
              ⟨limit - 1 - depth - 1, by omega⟩
            have hinner := hchild below hbelow target paid hpath
            rw [dif_neg hdeep]
            rw [hbelow, ResourceDirectory.children?] at hrest ⊢
            dsimp only
            exact hinner.bind fun inner after hafter => (hrest after hafter).map
              (ResourceEntries.directory id inner.table inner.entries)

/-- Entering a directory follows the exact walk, provided that entering the directories in it
does. -/
theorem resourceDirectory_follows_of_child {window : Bytes} (hsize : window.size ≤ Limits.largest)
    {limit depth : Nat} (hdepth : depth + 1 ≤ Limits.largest)
    (hchild : ∀ below, limit - 1 - depth = below + 1 → ∀ target before,
      Follows window 1 before (resourceDirectory window limit target (depth + 1) before)
        (ResourceDirectory.walk window below before.path target before.budget))
    (offset : Nat) (before : ResourceWalker) :
    Follows window 1 before (resourceDirectory window limit offset depth before)
      (ResourceDirectory.walk window (limit - 1 - depth) before.path offset before.budget) := by
  let entered : ResourceWalker := { before with entered := before.entered + 1 }
  have henter : enter before = .ok () entered := rfl
  have hkept : ResourceWalker.Kept window 1 before entered :=
    ⟨by dsimp only [entered]; omega, fun hopen => ⟨hopen.path, hopen.paths⟩⟩
  rw [resourceDirectory, bind_of_ok henter, bind_of_ok (get_eq entered),
    ResourceDirectory.walk_eq]
  by_cases hcycle : offset ∈ before.path
  · rw [if_pos hcycle, if_pos hcycle]
    exact .fault hkept
  · rw [if_neg hcycle, if_neg hcycle]
    by_cases hcut : window.size < offset + ResourceTable.byteSize
    · rw [if_pos hcut]
      by_cases hseek : window.size < offset
      · rw [seek, if_pos hseek]
        exact .fault hkept
      · rw [seek, if_neg hseek, bind_of_ok (lift_ok _ _),
          reads_resourceHead.cut ⟨window, offset⟩ hsize (Nat.le_of_not_lt hseek) hcut]
        exact .fault hkept
    · have hinside := Nat.le_of_not_lt hcut
      have hseek : ¬ window.size < offset := by omega
      let pushed := entered.follow (offset :: before.path)
      have hpush : push offset entered = .ok () pushed := rfl
      have hpushed : ResourceWalker.Kept window 1 before pushed :=
        ⟨hkept.entered, fun hopen => (hkept.isOpen hopen).follow
          (hopen.path.cons hcycle hinside)⟩
      have hcount : (window.u16 (offset + 12)).toNat + (window.u16 (offset + 14)).toNat ≤
          Limits.largest := by
        have hnamed := (window.u16 (offset + 12)).toNat_lt
        have hnumbered := (window.u16 (offset + 14)).toNat_lt
        unfold Limits.largest
        omega
      have hrows := resourceRows_follows hsize hdepth (offset :: before.path)
        (fun below hbelow target inner hpath => hpath ▸ hchild below hbelow target inner)
        (ResourceTable.rowCount window offset) (offset + ResourceTable.byteSize) hinside pushed rfl
      rw [if_neg hcut, seek, if_neg hseek, bind_of_ok (lift_ok _ _),
        reads_resourceHead.inside ⟨window, offset⟩ hsize hinside, bind_of_ok (lift_ok _ _)]
      dsimp only
      rw [bind_of_ok hpush, add_eq hcount, bind_of_ok (lift_ok _ _)]
      exact hrows.closing hpushed rfl (ResourceTable.readAt window offset)

/-- Entering a directory follows the exact walk. -/
theorem resourceDirectory_follows {window : Bytes} (hsize : window.size ≤ Limits.largest)
    {limit : Nat} (hlimit : limit ≤ Limits.largest) (below : Nat) {depth : Nat}
    (hdepth : depth + 1 ≤ Limits.largest) (hbelow : limit - 1 - depth = below) (offset : Nat)
    (before : ResourceWalker) :
    Follows window 1 before (resourceDirectory window limit offset depth before)
      (ResourceDirectory.walk window below before.path offset before.budget) := by
  induction below generalizing depth offset before with
  | zero =>
    rw [← hbelow]
    exact resourceDirectory_follows_of_child hsize hdepth (fun _ h => by omega) offset before
  | succ below ih =>
    rw [← hbelow]
    refine resourceDirectory_follows_of_child hsize hdepth (fun less hless target inner => ?_)
      offset before
    obtain rfl : below = less := by omega
    exact ih (by omega) (by omega) target inner

/-- The walk over the directories of a window from its start. -/
def walkResources (window : DirectoryWindow) (limits : Limits) :
    EStateM.Result Stop ResourceWalker ResourceDirectory :=
  resourceDirectory window.data limits.resourceDepth 0 0 (.start limits.resourceEntries)

/-- Reads the tree of resources that starts with the directory at the start of a window. -/
def resourceTree (window : DirectoryWindow) (limits : Limits) : Checked ResourceDirectory :=
  match walkResources window limits with
  | .ok root _ => .ok root
  | .error stop _ => .error stop

/-- The walk from the start of a window follows the exact walk. -/
theorem walkResources_follows (window : DirectoryWindow) (limits : Limits)
    (hsize : window.data.size ≤ Limits.largest) (hdepth : limits.resourceDepth ≤ Limits.largest) :
    Follows window.data 1 (.start limits.resourceEntries) (walkResources window limits)
      (ResourceDirectory.walk window.data (limits.resourceDepth - 1) [] 0 limits.resourceEntries) :=
  resourceDirectory_follows hsize hdepth _ (by decide) rfl 0 _

/-- The resources of a window are read without a trap, and are those of the exact reader. -/
theorem resourceTree_eq (window : DirectoryWindow) (limits : Limits)
    (hsize : window.data.size ≤ Limits.largest) (hdepth : limits.resourceDepth ≤ Limits.largest) :
    resourceTree window limits = ofResult (ResourceDirectory.read window limits) := by
  have hwalk := walkResources_follows window limits hsize hdepth
  unfold resourceTree ResourceDirectory.read
  generalize walkResources window limits = machine at hwalk ⊢
  generalize ResourceDirectory.walk window.data (limits.resourceDepth - 1) [] 0
    limits.resourceEntries = exact at hwalk ⊢
  cases hwalk <;> rfl

end PeImage.Checked
