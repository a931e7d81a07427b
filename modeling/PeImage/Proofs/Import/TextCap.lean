import PeImage.Proofs.Import.Reference
import PeImage.Proofs.Text.Cap

/-!
# The cap on strings and the import table

The texts of an import table are the names of its libraries and, two bytes behind an address in a
thunk, the names of functions. Whether a name is there is decided by the bytes alone: it takes one
byte of a string, which may be its end. So the cap decides how much of a name is read, and neither
whether a library is there nor what a thunk stands for. As a thunk is a function in any case, the
cap does not change either how many functions the limits leave to the next library.
-/

namespace PeImage

namespace ImportEntry

/-- The function with its name changed. -/
def mapText (f : String → String) : ImportEntry → ImportEntry
  | ordinal number => ordinal number
  | named hint name => named hint (f name)
  | unresolved rva => unresolved rva

/-- The bytes from the name on that a thunk leads to, if it has a hint and a byte behind it. -/
def nameTail? (space : AddressSpace) (thunk : Nat) : Option (List UInt8) :=
  if ordinalMark space.isWide ≤ thunk then none
  else
    match space.tail? (UInt32.ofNat (thunk % 0x80000000)) with
    | some (_ :: _ :: first :: rest) => some (first :: rest)
    | _ => none

/-- A function is read for each thunk. -/
theorem length_list (space : AddressSpace) (cap : Nat) (rva : UInt32) (limit : Nat) :
    (list space cap rva limit).length = ((thunks space rva).take limit).length := by
  rw [list_eq_take, ← List.map_take, List.length_map]

end ImportEntry

/-- The library with its name and those of its functions changed. -/
def ImportedLibrary.mapText (f : String → String) (library : ImportedLibrary) : ImportedLibrary :=
  { library with name := f library.name, entries := library.entries.map (·.mapText f) }

namespace ImportTable

/-- The table with its texts changed. -/
def mapText (f : String → String) (table : ImportTable) : ImportTable :=
  ⟨table.libraries.map (·.mapText f)⟩

/-- The table in which of each text no more is left than that it is there. -/
def withoutText (table : ImportTable) : ImportTable := table.mapText fun _ => ""

/-- The table is itself if its texts are not changed. -/
@[simp] theorem mapText_id (table : ImportTable) : table.mapText id = table := by
  have hentry : ImportEntry.mapText id = id := by
    funext entry
    cases entry <;> rfl
  have hlibrary : ImportedLibrary.mapText id = id := by
    funext library
    simp [ImportedLibrary.mapText, hentry]
  simp [mapText, hlibrary]

/-- What is read is the same if its texts are not changed. -/
theorem map_mapText_id (result : Except Fault ImportTable) : result.map (mapText id) = result := by
  cases result with
  | error fault => rfl
  | ok table => exact congrArg Except.ok table.mapText_id

/-- The strings of the libraries of some descriptors, each with all bytes behind it: the names of the
libraries, and the names that the thunks lead to which the limits leave to each of them. -/
def libraryStrings (space : AddressSpace) (limits : Limits) (budget : Nat)
    (descriptors : List ImportDescriptor) : List (List UInt8) :=
  descriptors.filterMap (space.tail? ·.nameRva) ++
    (cutEach limits.thunksPerImport budget
        (descriptors.map (ImportEntry.thunks space ·.lookupRva))).flatten.filterMap
      (ImportEntry.nameTail? space)

/-- The strings of the first library and those of the libraries behind it. -/
theorem mem_libraryStrings_cons {space : AddressSpace} {limits : Limits} {budget : Nat}
    {descriptor : ImportDescriptor} {rest : List ImportDescriptor} {octets : List UInt8} :
    let thunks := (ImportEntry.thunks space descriptor.lookupRva).take
      (min budget limits.thunksPerImport)
    octets ∈ libraryStrings space limits budget (descriptor :: rest) ↔
      octets ∈ space.tail? descriptor.nameRva ∨
        octets ∈ thunks.filterMap (ImportEntry.nameTail? space) ∨
          octets ∈ libraryStrings space limits (budget - thunks.length) rest := by
  dsimp only
  simp only [libraryStrings, List.map_cons, cutEach, List.flatten_cons, List.filterMap_append,
    List.mem_append, List.mem_filterMap, List.mem_cons, exists_eq_or_imp, Option.mem_def]
  rw [or_or_or_comm, or_assoc]

/-- The strings of a table, each with all bytes behind it. -/
def strings (window : DirectoryWindow) (space : AddressSpace) (limits : Limits) :
    List (List UInt8) :=
  libraryStrings space limits limits.importEntries
    (ImportDescriptor.list window.data limits.importDescriptors)

/-- With its texts changed, a list of libraries is read from a name, functions and libraries whose
texts are changed. -/
theorem map_mapText_readLibraries_cons (f : String → String) (space : AddressSpace)
    (limits : Limits) (budget : Nat) (descriptor : ImportDescriptor)
    (rest : List ImportDescriptor) :
    let entries := ImportEntry.list space limits.stringLength descriptor.lookupRva
      (min budget limits.thunksPerImport)
    (readLibraries space limits budget (descriptor :: rest)).map (List.map (·.mapText f)) = do
      let name ← (space.text descriptor.nameRva limits.stringLength).map f
      let libraries ← (readLibraries space limits (budget - entries.length) rest).map
        (List.map (·.mapText f))
      return ⟨name, descriptor, entries.map (·.mapText f)⟩ :: libraries := by
  dsimp only
  rw [readLibraries]
  cases space.text descriptor.nameRva limits.stringLength with
  | error fault => rfl
  | ok name =>
    dsimp only [ok_bind, Except.map]
    cases readLibraries space limits _ rest with
    | error fault => rfl
    | ok libraries => rfl

end ImportTable

variable {f : String → String} {n m : Nat} (space : AddressSpace) (limits : Limits)
  (hn : 0 < n) (hm : 0 < m)

include hn hm

/-- A name that is expected at an address is read alike with two caps. -/
theorem AddressSpace.map_text (rva : UInt32)
    (h : ∀ octets ∈ space.tail? rva, CapsAgree f n m octets) :
    (space.text rva n).map f = (space.text rva m).map f := by
  rw [text, text, text?_eq_stored, text?_eq_stored, storedText?, storedText?,
    if_neg (Nat.ne_of_gt hn), if_neg (Nat.ne_of_gt hm)]
  cases htail : space.tail? rva with
  | none => rfl
  | some octets => exact congrArg Except.ok (h octets htail)

namespace ImportEntry

/-- A thunk stands for the same function with two caps, and the text of its name is the same as far
as these agree on it. -/
theorem mapText_ofThunk (thunk : Nat)
    (h : ∀ octets ∈ nameTail? space thunk, CapsAgree f n m octets) :
    (ofThunk space n thunk).mapText f = (ofThunk space m thunk).mapText f := by
  unfold nameTail? at h
  unfold ofThunk
  simp only [hintName?_eq space _ hn, hintName?_eq space _ hm]
  split
  · rfl
  · rename_i hmark
    rw [if_neg hmark] at h
    generalize space.tail? (UInt32.ofNat (thunk % 0x80000000)) = tail at h ⊢
    obtain _ | _ | ⟨low, _ | ⟨high, _ | ⟨first, rest⟩⟩⟩ := tail
    -- Without a byte behind the hint there is no name with either cap.
    · rfl
    · rfl
    · rfl
    · rfl
    · exact congrArg (named _) (h (first :: rest) rfl)

/-- The functions at an address are the same with two caps, and the texts of their names are as far
as these agree on them. -/
theorem map_mapText_list (rva : UInt32) (limit : Nat)
    (h : ∀ octets ∈ ((thunks space rva).take limit).filterMap (nameTail? space),
      CapsAgree f n m octets) :
    (list space n rva limit).map (mapText f) = (list space m rva limit).map (mapText f) := by
  rw [list_eq_take, list_eq_take, ← List.map_take, ← List.map_take, List.map_map, List.map_map]
  refine List.map_congr_left fun thunk hthunk => ?_
  exact mapText_ofThunk space hn hm thunk fun octets hoctets =>
    h octets (List.mem_filterMap.mpr ⟨thunk, hthunk, hoctets⟩)

end ImportEntry

namespace ImportTable

/-- Libraries are read alike with two caps, with the same fault or with the same texts as far as the
caps agree on the strings. -/
theorem map_mapText_readLibraries (budget : Nat) (descriptors : List ImportDescriptor)
    (h : ∀ octets ∈ libraryStrings space limits budget descriptors, CapsAgree f n m octets) :
    (readLibraries space (limits.withStringLength n) budget descriptors).map
        (List.map (·.mapText f)) =
      (readLibraries space (limits.withStringLength m) budget descriptors).map
        (List.map (·.mapText f)) := by
  induction descriptors generalizing budget with
  | nil => rfl
  | cons descriptor rest ih =>
    let limit := min budget limits.thunksPerImport
    have hname := space.map_text hn hm descriptor.nameRva fun octets hoctets =>
      h octets (mem_libraryStrings_cons.mpr (.inl hoctets))
    have hentries := ImportEntry.map_mapText_list space hn hm descriptor.lookupRva limit
      fun octets hoctets => h octets (mem_libraryStrings_cons.mpr (.inr (.inl hoctets)))
    -- The libraries behind this one are left the same budget.
    have hrest := ih (budget - ((ImportEntry.thunks space descriptor.lookupRva).take limit).length)
      fun octets hoctets => h octets (mem_libraryStrings_cons.mpr (.inr (.inr hoctets)))
    rw [map_mapText_readLibraries_cons, map_mapText_readLibraries_cons]
    dsimp only [Limits.stringLength_withStringLength, Limits.thunksPerImport_withStringLength]
    rw [ImportEntry.length_list, ImportEntry.length_list, hname, hentries, hrest]

/-- A directory is read alike with two caps, with the same fault or with the same texts as far as
the caps agree on the strings. -/
theorem map_mapText_read (window : DirectoryWindow)
    (h : ∀ octets ∈ strings window space limits, CapsAgree f n m octets) :
    (read window space (limits.withStringLength n)).map (mapText f) =
      (read window space (limits.withStringLength m)).map (mapText f) := by
  rw [read_eq, read_eq]
  split
  · rfl
  · have hlibraries := map_mapText_readLibraries space limits hn hm limits.importEntries
      (ImportDescriptor.list window.data limits.importDescriptors) h
    have hmap (result : Except Fault (List ImportedLibrary)) : (result.map mk).map (mapText f) =
        (result.map (List.map (·.mapText f))).map mk := by
      cases result with
      | error fault => rfl
      | ok libraries => rfl
    rw [hmap, hmap]
    exact congrArg (Except.map mk) hlibraries

end ImportTable

end PeImage
