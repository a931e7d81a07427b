import PeImage.Proofs.AddressSpace
import PeImage.Proofs.Cut
import PeImage.Proofs.Import.Descriptors
import PeImage.Proofs.Result

/-!
# What reading the import table does

The thunks at an address are a list that knows no limit. Libraries are read for the stored
descriptors, and what they have of their functions is cut greedily against one budget. Names alone
decide whether there is a table at all.
-/

namespace PeImage

namespace ImportEntry

/-- The thunks at an address: the whole numbers before the first zero or the end of the file. -/
def thunks (space : AddressSpace) (rva : UInt32) : List Nat :=
  ((space.storedWords? rva (thunkWidth space.isWide)).getD []).takeWhile (· ≠ 0)

/-- A thunk is a number of its width. -/
theorem lt_range_of_mem_thunks {space : AddressSpace} {rva : UInt32} {thunk : Nat}
    (h : thunk ∈ thunks space rva) : thunk < LittleEndian.range (thunkWidth space.isWide) := by
  have hmem := List.takeWhile_subset _ h
  cases hwords : space.storedWords? rva (thunkWidth space.isWide) with
  | none => simp [hwords] at hmem
  | some words =>
    rw [hwords, Option.getD_some] at hmem
    exact AddressSpace.lt_range_of_mem_storedWords? hwords hmem

/-- No more thunks are found than words of four bytes fit into the file. -/
theorem length_thunks_le (space : AddressSpace) (rva : UInt32) :
    (thunks space rva).length ≤ space.bytes.size / 4 := by
  have hwidth : 4 ≤ thunkWidth space.isWide := by
    cases space.isWide <;> decide
  refine Nat.le_trans (List.takeWhile_sublist _).length_le ?_
  cases hwords : space.storedWords? rva (thunkWidth space.isWide) with
  | none => exact Nat.zero_le _
  | some words =>
    exact Nat.le_trans (AddressSpace.length_storedWords?_le hwords)
      (Nat.div_le_div_left hwidth (by decide))

/-- The functions that are read are those of all thunks, cut to the limit. -/
theorem list_eq_take (space : AddressSpace) (cap : Nat) (rva : UInt32) (limit : Nat) :
    list space cap rva limit = ((thunks space rva).map (ofThunk space cap)).take limit := by
  rw [list, thunks, AddressSpace.storedWords?, AddressSpace.tail?]
  cases space.offset? rva with
  | none => simp
  | some offset =>
    dsimp only [Option.map_some, Option.getD_some]
    rw [Bytes.nonzeroWordsAt_eq_records, List.map_take]

end ImportEntry

namespace ImportTable

/-- The number of functions of all libraries. -/
def entryCount (table : ImportTable) : Nat := totalLength (table.libraries.map (·.entries))

/-- The functions of a library when no limit cuts them. -/
def allEntries (space : AddressSpace) (cap : Nat) (descriptor : ImportDescriptor) :
    List ImportEntry :=
  (ImportEntry.thunks space descriptor.lookupRva).map (ImportEntry.ofThunk space cap)

/-- Libraries are read when all names are: one for each descriptor, with cuts of their functions. -/
theorem readLibraries_eq_ok (space : AddressSpace) (limits : Limits) (budget : Nat)
    (descriptors : List ImportDescriptor) (libraries : List ImportedLibrary) :
    readLibraries space limits budget descriptors = .ok libraries ↔
      libraries.map (fun library => (library.descriptor, Except.ok library.name)) =
        descriptors.map (fun descriptor =>
          (descriptor, space.text descriptor.nameRva limits.stringLength)) ∧
      libraries.map (·.entries) = cutEach limits.thunksPerImport budget
        (descriptors.map (allEntries space limits.stringLength)) := by
  induction descriptors generalizing budget libraries with
  | nil =>
    rw [readLibraries, List.map_nil, List.map_nil, cutEach, List.map_eq_nil_iff,
      List.map_eq_nil_iff, and_self, Except.ok.injEq, eq_comm]
  | cons descriptor rest ih =>
    simp only [readLibraries, bind_eq_ok, ih, ImportEntry.list_eq_take, List.map_cons, cutEach]
    apply Iff.intro
    · intro h
      obtain ⟨name, hname, others, ⟨hnames, hentries⟩, h⟩ := h
      obtain rfl := Except.ok.inj h
      rw [hname, List.map_cons, hnames, List.map_cons, hentries]
      exact ⟨rfl, rfl⟩
    · intro h
      obtain ⟨hnames, hentries⟩ := h
      cases libraries with
      | nil => cases hnames
      | cons library others =>
        rw [List.map_cons, List.cons.injEq, Prod.mk.injEq] at hnames
        rw [List.map_cons, List.cons.injEq] at hentries
        obtain ⟨⟨rfl, hname⟩, hnames⟩ := hnames
        refine ⟨library.name, hname.symm, others, ⟨hnames, hentries.2⟩, ?_⟩
        rw [allEntries] at hentries
        rw [← hentries.1]
        rfl

/-- Reading libraries fails as the first name that cannot be read does. -/
theorem readLibraries_eq_error (space : AddressSpace) (limits : Limits) (budget : Nat)
    (descriptors : List ImportDescriptor) (fault : Fault) :
    readLibraries space limits budget descriptors = .error fault ↔
      descriptors.mapM (fun descriptor => space.text descriptor.nameRva limits.stringLength) =
        .error fault := by
  induction descriptors generalizing budget with
  | nil =>
    rw [readLibraries, List.mapM_nil]
    exact iff_of_false (fun h => nomatch h) fun h => nomatch h
  | cons descriptor rest ih =>
    rw [readLibraries, List.mapM_cons, bind_eq_error, bind_eq_error]
    refine or_congr_right (exists_congr fun name => and_congr_right fun _ => ?_)
    rw [bind_eq_error, bind_eq_error, ih]
    exact or_congr_right (iff_of_false (fun ⟨_, _, h⟩ => nomatch h) fun ⟨_, _, h⟩ => nomatch h)

/-- A directory with room for a descriptor is read as the libraries of its descriptors. -/
theorem read_eq (window : DirectoryWindow) (space : AddressSpace) (limits : Limits) :
    read window space limits =
      if window.data.size < ImportDescriptor.byteSize then
        .error (.importDirectoryShort window.data.size)
      else
        (readLibraries space limits limits.importEntries
          (ImportDescriptor.list window.data limits.importDescriptors)).map mk := by
  unfold read
  split
  · rfl
  · rfl

/-- A table is read from a directory with room for a descriptor when the names of its libraries
are, and it has their functions as far as the limits go. -/
theorem read_eq_ok (window : DirectoryWindow) (space : AddressSpace) (limits : Limits)
    (table : ImportTable) :
    read window space limits = .ok table ↔
      ImportDescriptor.byteSize ≤ window.data.size ∧
        table.libraries.map (fun library => (library.descriptor, Except.ok library.name)) =
          (ImportDescriptor.list window.data limits.importDescriptors).map
            (fun descriptor =>
              (descriptor, space.text descriptor.nameRva limits.stringLength)) ∧
        table.libraries.map (·.entries) = cutEach limits.thunksPerImport limits.importEntries
          ((ImportDescriptor.list window.data limits.importDescriptors).map
            (allEntries space limits.stringLength)) := by
  rw [read_eq, ← Nat.not_lt, ← readLibraries_eq_ok]
  split
  · rename_i hshort
    exact iff_of_false (fun h => nomatch h) fun h => h.1 hshort
  · rename_i hlong
    rw [and_iff_right hlong]
    cases readLibraries space limits limits.importEntries
      (ImportDescriptor.list window.data limits.importDescriptors) with
    | error fault => exact iff_of_false (fun h => nomatch h) fun h => nomatch h
    | ok libraries =>
      obtain ⟨others⟩ := table
      simp [Except.map]

/-- No table is read from a directory without room for a descriptor, or when a name cannot be
read; limits on functions play no part in it. -/
theorem read_eq_error (window : DirectoryWindow) (space : AddressSpace) (limits : Limits)
    (fault : Fault) :
    read window space limits = .error fault ↔
      if window.data.size < ImportDescriptor.byteSize then
        .importDirectoryShort window.data.size = fault
      else
        (ImportDescriptor.list window.data limits.importDescriptors).mapM
          (fun descriptor => space.text descriptor.nameRva limits.stringLength) =
            .error fault := by
  rw [read_eq]
  split
  · rw [Except.error.injEq]
  · rw [← readLibraries_eq_error space limits limits.importEntries]
    cases readLibraries space limits limits.importEntries
      (ImportDescriptor.list window.data limits.importDescriptors) with
    | error other => simp [Except.map]
    | ok libraries => exact iff_of_false (fun h => nomatch h) fun h => nomatch h

end ImportTable

end PeImage
