import Mathlib.Data.List.Perm.Basic
import PeImage.Header.Optional

/-!
# Directories kept as ordered rows

An engine may keep the declared tables in rows, each of them an entry behind the table that it is
stored under, and in the order of the directory array. An entry names its table once more, and what
is handed out is the entry alone. A row is put in at its place, or in the place of the row that the
table had, so the rows stay in order and no table has two of them.

Rows that are kept so are the list of a map: they have the same declarations in the same order, and
every entry names the table that it is stored under.
-/

namespace PeImage

/-- The tables stand in the order of their places. -/
theorem DirectoryKey.all_pairwise : all.Pairwise fun a b => a.index < b.index := by decide

/-- Declared tables are listed in the order of their places, each once. -/
theorem DirectoryMap.toList_pairwise (map : DirectoryMap) :
    map.toList.Pairwise fun a b => a.1.index < b.1.index := by
  refine List.Pairwise.filterMap _ ?_ DirectoryKey.all_pairwise
  intro key other hlt entry hentry entry' hentry'
  obtain ⟨_, _, rfl⟩ := Option.map_eq_some_iff.mp hentry
  obtain ⟨_, _, rfl⟩ := Option.map_eq_some_iff.mp hentry'
  exact hlt

/-- A declared table as it is handed out, with its own name. -/
structure DirectoryEntry where
  key : DirectoryKey
  range : DirectoryRange
  deriving DecidableEq, Repr

/-- An entry behind the table that it is stored under. -/
abbrev DirectoryRow := DirectoryKey × DirectoryEntry

namespace DirectoryRow

/-- The row of a declared table. -/
def ofDeclared (declared : DirectoryKey × DirectoryRange) : DirectoryRow :=
  (declared.1, ⟨declared.1, declared.2⟩)

/-- The rows with an entry stored under a table, in the place of the one there was. -/
def insert (key : DirectoryKey) (entry : DirectoryEntry) : List DirectoryRow → List DirectoryRow
  | [] => [(key, entry)]
  | row :: rest =>
    if row.1.index < key.index then row :: insert key entry rest
    else if row.1 = key then (key, entry) :: rest
    else (key, entry) :: row :: rest

/-- The rows without that of a table. -/
def erase (key : DirectoryKey) (rows : List DirectoryRow) : List DirectoryRow :=
  rows.filter (·.1 ≠ key)

/-- The entry stored under a table, if there is one. -/
def find? (key : DirectoryKey) (rows : List DirectoryRow) : Option DirectoryEntry :=
  (rows.find? (·.1 = key)).map Prod.snd

/-- The rows after a change to the header. -/
def apply (rows : List DirectoryRow) : OptionalHeader.Edit → List DirectoryRow
  | .entryPoint _ => rows
  | .declare key range => insert key ⟨key, range⟩ rows
  | .withdraw key => erase key rows

/-- The rows after a list of changes in sequence. -/
def applyAll (rows : List DirectoryRow) (edits : List OptionalHeader.Edit) : List DirectoryRow :=
  edits.foldl apply rows

/-- The rows are in the order of the directory array, with at most one of each table. -/
def Ordered (rows : List DirectoryRow) : Prop := rows.Pairwise fun a b => a.1.index < b.1.index

/-- The rows keep what a map declares: they are in order, and the entries are those of the declared
tables, each with the name of its own. -/
structure Keeps (rows : List DirectoryRow) (map : DirectoryMap) : Prop where
  ordered : Ordered rows
  mem_iff : ∀ key entry, (key, entry) ∈ rows ↔ entry.key = key ∧ map.get? key = some entry.range

section Ordered

variable {key : DirectoryKey} {entry : DirectoryEntry} {rows : List DirectoryRow}

/-- A table with a smaller place is another one. -/
theorem ne_of_index_lt {a b : DirectoryKey} (h : a.index < b.index) : a ≠ b :=
  fun hsame => Nat.lt_irrefl _ (Fin.lt_def.mp (hsame ▸ h))

/-- Another table that has no smaller place has a larger one. -/
theorem index_lt_of_ne {a b : DirectoryKey} (hle : ¬ a.index < b.index) (hne : a ≠ b) :
    b.index < a.index :=
  Fin.lt_def.mpr (Nat.lt_of_le_of_ne (Nat.le_of_not_lt hle) fun hsame =>
    hne (DirectoryKey.index_injective (Fin.ext hsame.symm)))

/-- A table with a smaller place than the first row has a smaller one than every row. -/
theorem Ordered.lt_of_mem {first row : DirectoryRow} (h : Ordered (first :: rows))
    (hlt : key.index < first.1.index) (hrow : row ∈ first :: rows) :
    key.index < row.1.index := by
  obtain rfl | hbehind := List.mem_cons.mp hrow
  · exact hlt
  · exact Fin.lt_trans hlt (List.rel_of_pairwise_cons h hbehind)

/-- After storing there are the new row and those of the other tables. -/
theorem mem_insert (h : Ordered rows) {row : DirectoryRow} :
    row ∈ insert key entry rows ↔ row = (key, entry) ∨ row ∈ rows ∧ row.1 ≠ key := by
  fun_induction insert key entry rows with
  | case1 => simp
  | case2 first rest hlt ih =>
    -- The new row belongs behind the first one.
    have hkept : row = first ∧ row.1 ≠ key ↔ row = first :=
      and_iff_left_of_imp fun hrow => hrow ▸ ne_of_index_lt hlt
    rw [List.mem_cons, List.mem_cons, or_and_right, ih h.of_cons, hkept, or_left_comm]
  | case3 first rest hle hsame =>
    -- It takes the place of the first one, and no other row is of its table.
    have hgone : ¬ (row = first ∧ row.1 ≠ key) := fun hrow => hrow.2 (hrow.1 ▸ hsame)
    have hkept : row ∈ rest ∧ row.1 ≠ key ↔ row ∈ rest :=
      and_iff_left_of_imp fun hrow =>
        (ne_of_index_lt (hsame ▸ List.rel_of_pairwise_cons h hrow)).symm
    rw [List.mem_cons, List.mem_cons, or_and_right, hkept, or_iff_right hgone]
  | case4 first rest hle hne =>
    -- It belongs in front of all rows, and none of them is of its table.
    have hkept : row ∈ first :: rest ∧ row.1 ≠ key ↔ row ∈ first :: rest :=
      and_iff_left_of_imp fun hrow =>
        (ne_of_index_lt (h.lt_of_mem (index_lt_of_ne hle hne) hrow)).symm
    rw [List.mem_cons, hkept]

/-- Storing keeps the rows in order. -/
theorem ordered_insert (h : Ordered rows) : Ordered (insert key entry rows) := by
  fun_induction insert key entry rows with
  | case1 => exact List.pairwise_singleton _ _
  | case2 first rest hlt ih =>
    refine List.pairwise_cons.mpr ⟨fun row hrow => ?_, ih h.of_cons⟩
    obtain rfl | ⟨hrow, _⟩ := (mem_insert h.of_cons).mp hrow
    · exact hlt
    · exact List.rel_of_pairwise_cons h hrow
  | case3 first rest hle hsame =>
    exact List.pairwise_cons.mpr
      ⟨fun row hrow => hsame ▸ List.rel_of_pairwise_cons h hrow, h.of_cons⟩
  | case4 first rest hle hne =>
    exact List.pairwise_cons.mpr
      ⟨fun row hrow => h.lt_of_mem (index_lt_of_ne hle hne) hrow, h⟩

/-- What is found for a table is the entry of its row. -/
theorem find?_eq_some (h : Ordered rows) :
    find? key rows = some entry ↔ (key, entry) ∈ rows := by
  induction rows with
  | nil => simp [find?]
  | cons first rest ih =>
    obtain ⟨hfirst, hrest⟩ := List.pairwise_cons.mp h
    rw [List.mem_cons]
    by_cases hsame : first.1 = key
    · have hnone : (key, entry) ∉ rest := fun hrow =>
        ne_of_index_lt (hfirst _ hrow) hsame
      rw [find?, List.find?_cons_of_pos (by simpa using hsame), or_iff_left hnone, Option.map_some,
        Option.some.injEq, Prod.ext_iff, and_iff_right hsame.symm, eq_comm]
    · have hother : (key, entry) ≠ first := fun hrow => hsame (hrow ▸ rfl)
      rw [find?, List.find?_cons_of_neg (by simpa using hsame), ← find?, ih hrest,
        or_iff_right hother]

/-- No row is there twice. -/
theorem Ordered.nodup (h : Ordered rows) : rows.Nodup :=
  List.nodup_iff_pairwise_ne.mpr
    (List.Pairwise.imp (fun hlt hsame => ne_of_index_lt hlt (congrArg Prod.fst hsame)) h)

end Ordered

section Keeps

variable {rows : List DirectoryRow} {map : DirectoryMap}

/-- Rows keep a declaration that is stored in them. -/
theorem Keeps.insert (h : Keeps rows map) (key : DirectoryKey) (range : DirectoryRange) :
    Keeps (insert key ⟨key, range⟩ rows) (map.insert key range) where
  ordered := ordered_insert h.ordered
  mem_iff other entry := by
    rw [mem_insert h.ordered, h.mem_iff, DirectoryMap.get?_insert]
    by_cases hsame : key = other
    · subst hsame
      obtain ⟨name, place⟩ := entry
      rw [if_pos rfl, or_iff_left fun hkept => hkept.2 rfl, Prod.mk.injEq, and_iff_right rfl,
        DirectoryEntry.mk.injEq, Option.some.injEq]
      exact and_congr_right fun _ => eq_comm
    · have hother : ¬ (other, entry) = (key, ⟨key, range⟩) := fun hrow =>
        hsame (congrArg Prod.fst hrow).symm
      rw [if_neg hsame, or_iff_right hother]
      exact and_iff_left (Ne.symm hsame)

/-- Rows keep what is left when a declaration is erased. -/
theorem Keeps.erase (h : Keeps rows map) (key : DirectoryKey) :
    Keeps (erase key rows) (map.erase key) where
  ordered := List.Pairwise.filter _ h.ordered
  mem_iff other entry := by
    rw [DirectoryRow.erase, List.mem_filter, h.mem_iff, DirectoryMap.get?_erase]
    by_cases hsame : key = other
    · rw [if_pos hsame]
      exact iff_of_false (fun hkept => of_decide_eq_true hkept.2 hsame.symm)
        fun hkept => nomatch hkept.2
    · rw [if_neg hsame]
      exact and_iff_left (decide_eq_true (Ne.symm hsame))

/-- Rows keep what is declared after a change, if they kept what was declared before it. -/
theorem Keeps.apply {header : OptionalHeader} (h : Keeps rows header.directories)
    (edit : OptionalHeader.Edit) : Keeps (apply rows edit) (header.apply edit).directories := by
  cases edit with
  | entryPoint rva => exact h
  | declare key range => exact h.insert key range
  | withdraw key => exact h.erase key

/-- Rows keep what is declared through any changes. -/
theorem Keeps.applyAll {header : OptionalHeader} (h : Keeps rows header.directories)
    (edits : List OptionalHeader.Edit) :
    Keeps (applyAll rows edits) (header.applyAll edits).directories := by
  induction edits generalizing rows header with
  | nil => exact h
  | cons edit rest ih => exact ih (h.apply edit)

/-- The entry found for a table is its declaration, by its own name. -/
theorem Keeps.find?_eq (h : Keeps rows map) (key : DirectoryKey) :
    find? key rows = (map.get? key).map (DirectoryEntry.mk key) := by
  ext entry
  obtain ⟨name, range⟩ := entry
  rw [find?_eq_some h.ordered, h.mem_iff, Option.map_eq_some_iff]
  constructor
  · rintro ⟨rfl, hrange⟩
    exact ⟨range, hrange, rfl⟩
  · rintro ⟨_, hrange, hentry⟩
    obtain ⟨rfl, rfl⟩ := DirectoryEntry.mk.inj hentry
    exact ⟨rfl, hrange⟩

/-- Rows that keep the same declarations are the same. -/
theorem Keeps.unique {others : List DirectoryRow} (h : Keeps rows map)
    (hothers : Keeps others map) : rows = others := by
  have hperm : rows.Perm others :=
    (List.perm_ext_iff_of_nodup h.ordered.nodup hothers.ordered.nodup).mpr fun (key, entry) =>
      (h.mem_iff key entry).trans (hothers.mem_iff key entry).symm
  refine hperm.eq_of_pairwise (fun a b _ _ hab hba => ?_) h.ordered hothers.ordered
  exact absurd hab (Fin.not_lt.mpr (Fin.le_of_lt hba))

/-- The declarations of a map in their order are rows that keep it. -/
theorem keeps_toList (map : DirectoryMap) : Keeps (map.toList.map ofDeclared) map where
  ordered := List.pairwise_map.mpr map.toList_pairwise
  mem_iff key entry := by
    obtain ⟨name, range⟩ := entry
    rw [← map.mem_toList, List.mem_map]
    constructor
    · rintro ⟨declared, hdeclared, hrow⟩
      obtain ⟨rfl, hentry⟩ := Prod.mk.inj hrow
      obtain ⟨rfl, rfl⟩ := DirectoryEntry.mk.inj hentry
      exact ⟨rfl, hdeclared⟩
    · rintro ⟨rfl, hdeclared⟩
      exact ⟨_, hdeclared, rfl⟩

end Keeps

end DirectoryRow

end PeImage
