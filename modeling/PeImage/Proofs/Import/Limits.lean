import PeImage.Proofs.Import.Libraries

/-!
# Limits only cut imports

A limit on functions never decides whether a table is read, nor which libraries it has: each
library has the first of its functions, as many as its own limit and what the libraries before it
left of the total allow. A limit on descriptors keeps the first libraries.
-/

namespace PeImage

/-- The limits without those on functions. -/
def Limits.withAllEntries (limits : Limits) : Limits :=
  { limits with thunksPerImport := Limits.largest, importEntries := Limits.largest }

namespace ImportTable

variable {window : DirectoryWindow} {space : AddressSpace} {limits : Limits}
  {table whole : ImportTable}

/-- Faults do not depend on the limits on functions. -/
theorem read_eq_error_iff_withAllEntries (window : DirectoryWindow) (space : AddressSpace)
    (limits : Limits) (fault : Fault) :
    read window space limits = .error fault ↔
      read window space limits.withAllEntries = .error fault :=
  (read_eq_error window space limits fault).trans
    (read_eq_error window space limits.withAllEntries fault).symm

/-- The functions of a table that is read are within the limit on their total. -/
theorem entryCount_le_of_read (h : read window space limits = .ok table) :
    table.entryCount ≤ limits.importEntries := by
  obtain ⟨_, _, hentries⟩ := (read_eq_ok ..).mp h
  rw [entryCount, hentries]
  exact totalLength_cutEach_le ..

/-- The limits on functions leave names and descriptors as they are. -/
theorem names_eq_of_read_withAllEntries (h : read window space limits = .ok table)
    (hwhole : read window space limits.withAllEntries = .ok whole) :
    table.libraries.map (fun library => (library.name, library.descriptor)) =
      whole.libraries.map fun library => (library.name, library.descriptor) := by
  obtain ⟨_, hnames, _⟩ := (read_eq_ok ..).mp h
  obtain ⟨_, hwholeNames, _⟩ := (read_eq_ok ..).mp hwhole
  have hsame := congrArg (List.map fun pair => (pair.2.toOption.getD "", pair.1))
    (hnames.trans hwholeNames.symm)
  rw [List.map_map, List.map_map] at hsame
  exact hsame

/-- A library has the first of its functions, as many as the limits leave to it. -/
theorem entries_eq_take_of_read (h : read window space limits = .ok table)
    (hwhole : read window space limits.withAllEntries = .ok whole)
    (hcount : whole.entryCount < Limits.largest) (i : Nat) :
    table.libraries[i]?.map (·.entries) = whole.libraries[i]?.map fun library =>
      library.entries.take (min limits.thunksPerImport
        (limits.importEntries - entryCount ⟨table.libraries.take i⟩)) := by
  obtain ⟨_, _, hentries⟩ := (read_eq_ok ..).mp h
  obtain ⟨_, _, hall⟩ := (read_eq_ok ..).mp hwhole
  rw [entryCount, hall] at hcount
  have hcap : limits.withAllEntries.importEntries ≤ limits.withAllEntries.thunksPerImport :=
    Nat.le_refl Limits.largest
  rw [cutEach_eq_self_of_lt hcap hcount] at hall
  have hpart := getElem?_cutEach limits.thunksPerImport limits.importEntries
    (whole.libraries.map (·.entries)) i
  have hcut : cutEach limits.thunksPerImport limits.importEntries
      (whole.libraries.map (·.entries)) = table.libraries.map (·.entries) := by
    rw [hall, hentries]
    rfl
  rw [hcut, List.getElem?_map, List.getElem?_map, Option.map_map, ← List.map_take] at hpart
  exact hpart

/-- A smaller limit on descriptors keeps the first libraries. -/
theorem read_take_descriptors {n : Nat} (hn : n ≤ limits.importDescriptors)
    (h : read window space limits = .ok table) :
    read window space { limits with importDescriptors := n } = .ok ⟨table.libraries.take n⟩ := by
  obtain ⟨hsize, hnames, hentries⟩ := (read_eq_ok ..).mp h
  refine (read_eq_ok ..).mpr ⟨hsize, ?_, ?_⟩
  · rw [List.map_take, hnames, ← List.map_take, ImportDescriptor.take_list window.data hn]
  · rw [List.map_take, hentries, take_cutEach, ← List.map_take,
      ImportDescriptor.take_list window.data hn]

/-- Whatever the limits, the functions of a table are no more than whole thunks of the file for
each descriptor of the directory. -/
theorem entryCount_le_of_sizes (h : read window space limits = .ok table) :
    table.entryCount ≤
      window.data.size / ImportDescriptor.byteSize * (space.bytes.size / 4) := by
  obtain ⟨_, _, hentries⟩ := (read_eq_ok ..).mp h
  have hdescriptors := ImportDescriptor.length_list_le window.data limits.importDescriptors
  have heach : ∀ entries ∈ (ImportDescriptor.list window.data limits.importDescriptors).map
      (allEntries space limits.stringLength), entries.length ≤ space.bytes.size / 4 := by
    intro entries hmem
    obtain ⟨descriptor, _, rfl⟩ := List.mem_map.mp hmem
    rw [allEntries, List.length_map]
    exact ImportEntry.length_thunks_le space descriptor.lookupRva
  have hall := totalLength_le heach
  rw [List.length_map] at hall
  rw [entryCount, hentries]
  calc
    _ ≤ totalLength _ := totalLength_cutEach_le_totalLength ..
    _ ≤ _ := hall
    _ ≤ _ := Nat.mul_le_mul_right _ hdescriptors

/-- Limits on functions only cut: they change neither faults nor names nor descriptors, and every
library has the first of its functions, as many as its own limit and what the libraries before it
left of the total allow. All functions together stay within the total, and a smaller limit on
descriptors keeps the first libraries. That nothing is cut without limits presumes a table with
fewer functions than a 64-bit word can count, as any that fits into memory has. -/
theorem read_cut (window : DirectoryWindow) (space : AddressSpace) (limits : Limits) :
    (∀ fault, read window space limits = .error fault ↔
      read window space limits.withAllEntries = .error fault) ∧
    (∀ table whole, read window space limits = .ok table →
      read window space limits.withAllEntries = .ok whole →
        table.libraries.map (fun library => (library.name, library.descriptor)) =
          whole.libraries.map (fun library => (library.name, library.descriptor)) ∧
        table.entryCount ≤ limits.importEntries ∧
        (whole.entryCount < Limits.largest → ∀ i : Nat,
          table.libraries[i]?.map (·.entries) = whole.libraries[i]?.map fun library =>
            library.entries.take (min limits.thunksPerImport
              (limits.importEntries - entryCount ⟨table.libraries.take i⟩)))) ∧
    ∀ table n, n ≤ limits.importDescriptors → read window space limits = .ok table →
      read window space { limits with importDescriptors := n } =
        .ok ⟨table.libraries.take n⟩ := by
  refine ⟨read_eq_error_iff_withAllEntries window space limits, ?_, ?_⟩
  · intro table whole h hwhole
    exact ⟨names_eq_of_read_withAllEntries h hwhole, entryCount_le_of_read h,
      entries_eq_take_of_read h hwhole⟩
  · intro table n hn h
    exact read_take_descriptors hn h

/-- A narrow image with two libraries that share an array of three thunks. -/
def sharing : AddressSpace :=
  .flat 0x1000 (Bytes.ofOctets
    ([0x1040, 0, 0, 0x103C, 0, 0x1040, 1, 0, 0x103C, 0, 0, 0, 0, 0, 0].flatMap
        (LittleEndian.ofNat 4) ++
      [0x61, 0x62, 0, 0] ++
      [0x80000007, 0x80000008, 0x80000009, 0].flatMap (LittleEndian.ofNat 4))) false

/-- One of the two libraries with some of its functions. -/
def sharingLibrary (timeDateStamp : UInt32) (ordinals : List UInt16) : ImportedLibrary where
  name := "ab"
  descriptor := ⟨0x1040, timeDateStamp, 0, 0x103C, 0⟩
  entries := ordinals.map .ordinal

/-- Limits of two functions for each library and three for all. -/
def sharingLimits : Limits := { Limits.standard with thunksPerImport := 2, importEntries := 3 }

/-- One function is left to the second of two libraries that share an array. -/
theorem read_cut_sharing :
    read (sharing.window 0x1000 60) sharing sharingLimits =
        .ok ⟨[sharingLibrary 0 [7, 8], sharingLibrary 1 [7]]⟩ ∧
      (sharingLibrary 1 [7]).entries = (sharingLibrary 1 [7, 8, 9]).entries.take (min 2 (3 - 2)) ∧
      read (sharing.window 0x1000 60) sharing { sharingLimits with importDescriptors := 1 } =
        .ok ⟨[sharingLibrary 0 [7, 8]]⟩ := by
  have hread : read (sharing.window 0x1000 60) sharing sharingLimits =
      .ok ⟨[sharingLibrary 0 [7, 8], sharingLibrary 1 [7]]⟩ := by rfl
  have hwhole : read (sharing.window 0x1000 60) sharing sharingLimits.withAllEntries =
      .ok ⟨[sharingLibrary 0 [7, 8, 9], sharingLibrary 1 [7, 8, 9]]⟩ := by rfl
  obtain ⟨_, hcut, hfirst⟩ := read_cut (sharing.window 0x1000 60) sharing sharingLimits
  have hsecond := (hcut _ _ hread hwhole).2.2 (by decide) 1
  exact ⟨hread, Option.some.inj hsecond, hfirst _ 1 (by decide) hread⟩

end ImportTable

end PeImage
