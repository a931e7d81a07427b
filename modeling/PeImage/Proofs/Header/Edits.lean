import PeImage.Proofs.Header.DirectoryRows

/-!
# Changes to a header

A change says something of one table, or where the entry point is, and nothing of all the rest. What
holds of a header after any changes is therefore found by looking back for the last change that says
something of it: a table is where that change has declared it, or is not declared, and without such
a change all is as it was at first. Changes of different tables do not look at each other, so they
can be made in either order.
-/

namespace PeImage

/-- After steps in sequence, what is seen of a state is what the last step has said of it, or what
was seen at first if none has said anything. -/
theorem foldl_eq_last {σ α β : Type} {step : σ → α → σ} (view : σ → β) {says? : α → Option β}
    (h : ∀ state value, view (step state value) = (says? value).getD (view state)) (state : σ)
    (values : List α) :
    view (values.foldl step state) = (values.reverse.findSome? says?).getD (view state) := by
  induction values generalizing state with
  | nil => rfl
  | cons value rest ih =>
    rw [List.foldl_cons, ih, h, List.reverse_cons, List.findSome?_append, Option.getD_or,
      List.findSome?_singleton]

namespace OptionalHeader

/-- The table that a change is about, if it is about one. -/
def Edit.table? : Edit → Option DirectoryKey
  | .entryPoint _ => none
  | .declare key _ => some key
  | .withdraw key => some key

/-- What a change says of a table, if it is about that table: where it is declared, or that it is
not. -/
def Edit.directory? (edit : Edit) (key : DirectoryKey) : Option (Option DirectoryRange) :=
  match edit with
  | .entryPoint _ => none
  | .declare other range => if other = key then some (some range) else none
  | .withdraw other => if other = key then some none else none

/-- Where a change puts the entry point, if it does. -/
def Edit.entryPoint? : Edit → Option UInt32
  | .entryPoint rva => some rva
  | .declare _ _ => none
  | .withdraw _ => none

/-- A change of one table says nothing of another. -/
theorem Edit.directory?_eq_none {edit : Edit} {key : DirectoryKey} (h : edit.table? ≠ some key) :
    edit.directory? key = none := by
  cases edit with
  | entryPoint rva => rfl
  | declare other range => exact if_neg fun hsame => h (congrArg some hsame)
  | withdraw other => exact if_neg fun hsame => h (congrArg some hsame)

/-- A change of a table says nothing of the entry point. -/
theorem Edit.entryPoint?_eq_none {edit : Edit} (h : edit.table? ≠ none) :
    edit.entryPoint? = none := by
  cases edit with
  | entryPoint rva => exact absurd rfl h
  | declare other range => rfl
  | withdraw other => rfl

/-- A table is declared after a change as the change says, and otherwise as before. -/
theorem directory?_apply (header : OptionalHeader) (edit : Edit) (key : DirectoryKey) :
    (header.apply edit).directory? key = (edit.directory? key).getD (header.directory? key) := by
  cases edit with
  | entryPoint rva => rfl
  | declare other range =>
    refine (DirectoryMap.get?_insert ..).trans ?_
    rw [Edit.directory?]
    split <;> rfl
  | withdraw other =>
    refine (DirectoryMap.get?_erase ..).trans ?_
    rw [Edit.directory?]
    split <;> rfl

/-- The entry point after a change is where the change puts it, and otherwise where it was. -/
theorem entryPoint_apply (header : OptionalHeader) (edit : Edit) :
    (header.apply edit).entryPoint = edit.entryPoint?.getD header.entryPoint := by
  cases edit <;> rfl

/-- The header without what changes are about. -/
def fixedPart (header : OptionalHeader) : OptionalHeader :=
  { header with entryPoint := 0, directories := .empty }

/-- A change leaves all other fields as they were. -/
theorem fixedPart_apply (header : OptionalHeader) (edit : Edit) :
    (header.apply edit).fixedPart = header.fixedPart := by
  cases edit <;> rfl

/-- Changes leave all other fields as they were. -/
theorem fixedPart_applyAll (header : OptionalHeader) (edits : List Edit) :
    (header.applyAll edits).fixedPart = header.fixedPart := by
  induction edits generalizing header with
  | nil => rfl
  | cons edit rest ih => exact (ih (header.apply edit)).trans (header.fixedPart_apply edit)

/-- Two headers that agree in what changes are about and in all other fields are equal. -/
theorem eq_of_parts {a b : OptionalHeader} (hfixed : a.fixedPart = b.fixedPart)
    (hentry : a.entryPoint = b.entryPoint) (htables : ∀ key, a.directory? key = b.directory? key) :
    a = b := by
  have hdirectories : a.directories = b.directories := DirectoryMap.ext_get? htables
  have hparts (header : OptionalHeader) : header =
      { header.fixedPart with
        entryPoint := header.entryPoint, directories := header.directories } := rfl
  rw [hparts a, hparts b, hfixed, hentry, hdirectories]

/-- Two changes that are not of the same table can be made in either order. -/
theorem apply_comm (header : OptionalHeader) {first second : Edit}
    (h : first.table? ≠ second.table?) :
    (header.apply first).apply second = (header.apply second).apply first := by
  refine eq_of_parts ?_ ?_ fun key => ?_
  · rw [fixedPart_apply, fixedPart_apply, fixedPart_apply, fixedPart_apply]
  -- At most one of the two says something of the entry point, and of any table.
  · rw [entryPoint_apply, entryPoint_apply, entryPoint_apply, entryPoint_apply]
    by_cases hfirst : first.table? = none
    · rw [Edit.entryPoint?_eq_none (hfirst ▸ h.symm), Option.getD_none, Option.getD_none]
    · rw [Edit.entryPoint?_eq_none hfirst, Option.getD_none, Option.getD_none]
  · rw [directory?_apply, directory?_apply, directory?_apply, directory?_apply]
    by_cases hfirst : first.table? = some key
    · rw [Edit.directory?_eq_none (hfirst ▸ h.symm), Option.getD_none, Option.getD_none]
    · rw [Edit.directory?_eq_none hfirst, Option.getD_none, Option.getD_none]

/-- A header has become another by some changes. Each table is where the last change of it says, the
entry point is where the last change puts it, and all other fields are as they were. The listed
tables are the declared ones, each once and in the order of the directory array. Rows that kept the
directories of the one and are changed step by step end as the list of the other: the entries are
found by their tables, and each is stored under the table that it names. -/
structure Becomes (header : OptionalHeader) (edits : List Edit) (changed : OptionalHeader) :
    Prop where
  directory : ∀ key, changed.directory? key =
    (edits.reverse.findSome? (·.directory? key)).getD (header.directory? key)
  entryPoint : changed.entryPoint =
    (edits.reverse.findSome? (·.entryPoint?)).getD header.entryPoint
  fixedPart : changed.fixedPart = header.fixedPart
  listed : ∀ key range, (key, range) ∈ changed.directories.toList ↔
    changed.directory? key = some range
  ordered : changed.directories.toList.Pairwise fun a b => a.1.index < b.1.index
  rows : ∀ rows, DirectoryRow.Keeps rows header.directories →
    DirectoryRow.applyAll rows edits = changed.directories.toList.map DirectoryRow.ofDeclared
  found : ∀ rows, DirectoryRow.Keeps rows header.directories → ∀ key,
    DirectoryRow.find? key (DirectoryRow.applyAll rows edits) =
      (changed.directory? key).map (DirectoryEntry.mk key)

/-- The directories of a header are a finite map that changes act on one by one, through any history
of them, and changes next to each other that are not of the same table can be exchanged. -/
theorem applyAll_becomes (header : OptionalHeader) (edits : List Edit) :
    header.Becomes edits (header.applyAll edits) ∧
      ∀ before first second after, first.table? ≠ second.table? →
        header.applyAll (before ++ first :: second :: after) =
          header.applyAll (before ++ second :: first :: after) := by
  constructor
  · exact {
      directory := fun key =>
        foldl_eq_last (directory? · key) (directory?_apply · · key) header edits
      entryPoint := foldl_eq_last (·.entryPoint) entryPoint_apply header edits
      fixedPart := header.fixedPart_applyAll edits
      listed := DirectoryMap.mem_toList _
      ordered := DirectoryMap.toList_pairwise _
      rows := fun rows hrows => (hrows.applyAll edits).unique (DirectoryRow.keeps_toList _)
      found := fun rows hrows => (hrows.applyAll edits).find?_eq }
  · intro before first second after h
    rw [applyAll, applyAll, List.foldl_append, List.foldl_append, List.foldl_cons, List.foldl_cons,
      List.foldl_cons, List.foldl_cons, apply_comm _ h]

/-- A header that declares two tables. -/
def twoTables : OptionalHeader :=
  (withDirectory {} .resourceTable ⟨0x3000, 0x100⟩).withDirectory .importTable ⟨0x2000, 0x28⟩

/-- The rows of the two tables. -/
def twoRows : List DirectoryRow :=
  [(.importTable, ⟨.importTable, 0x2000, 0x28⟩), (.resourceTable, ⟨.resourceTable, 0x3000, 0x100⟩)]

/-- One table is declared twice, with the other changes in between, and another one is withdrawn. -/
theorem applyAll_becomes_twoTables :
    let again : Edit := .declare .exportTable ⟨0x5000, 0x40⟩
    let edits : List Edit :=
      [.declare .exportTable ⟨1, 2⟩, .withdraw .importTable, .entryPoint 0x1010, again]
    DirectoryRow.Keeps twoRows twoTables.directories ∧
      DirectoryRow.applyAll twoRows edits =
        [(.exportTable, ⟨.exportTable, 0x5000, 0x40⟩),
          (.resourceTable, ⟨.resourceTable, 0x3000, 0x100⟩)] ∧
      (twoTables.applyAll edits).directory? .importTable = none ∧
      (twoTables.applyAll edits).entryPoint = 0x1010 ∧
      (Edit.withdraw .importTable).table? ≠ (Edit.declare .exportTable ⟨1, 2⟩).table? ∧
      twoTables.applyAll edits = twoTables.applyAll
        [.withdraw .importTable, .declare .exportTable ⟨1, 2⟩, .entryPoint 0x1010, again] := by
  intro again edits
  have hrows : DirectoryRow.Keeps twoRows twoTables.directories :=
    DirectoryRow.keeps_toList twoTables.directories
  have htables : (Edit.withdraw .importTable).table? ≠
      (Edit.declare .exportTable ⟨1, 2⟩).table? := by decide
  obtain ⟨hbecomes, hcomm⟩ := applyAll_becomes twoTables edits
  exact ⟨hrows, hbecomes.rows twoRows hrows, hbecomes.directory .importTable, hbecomes.entryPoint,
    htables, hcomm [] _ _ _ htables.symm⟩

end OptionalHeader

end PeImage
