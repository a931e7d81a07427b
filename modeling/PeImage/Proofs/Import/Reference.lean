import PeImage.Proofs.Import.Libraries

/-!
# The import table that is stored

The whole table, said without a reader and without limits: a library for each stored descriptor,
and a function for each thunk at the address that the descriptor gives. A thunk is decoded by its
own bits and by the bytes at the address in it, and it keeps its place whatever it leads to. With
limits that have room for it, and names that lead somewhere, this is the table that is read.
-/

namespace PeImage

namespace ImportEntry

/-- The function that a thunk stands for. The highest bit of its width marks an ordinal, and
otherwise the low 31 bits are the address of a hint with a name behind it. -/
def decode (space : AddressSpace) (cap thunk : Nat) : ImportEntry :=
  if thunk.testBit (if space.isWide then 63 else 31) then
    .ordinal (UInt16.ofNat (thunk % 0x10000))
  else
    let rva := UInt32.ofNat (thunk % 0x80000000)
    match space.tail? rva with
    | some (low :: high :: first :: rest) =>
      .named (UInt16.ofNat (LittleEndian.toNat [low, high]))
        (Utf8.decode (terminated cap (first :: rest)))
    | _ => .unresolved rva

/-- A thunk is marked as an ordinal exactly when its highest bit is set. -/
theorem ordinalMark_le_iff (isWide : Bool) {thunk : Nat}
    (hthunk : thunk < LittleEndian.range (thunkWidth isWide)) :
    ordinalMark isWide ≤ thunk ↔ thunk.testBit (if isWide then 63 else 31) = true := by
  rw [Nat.testBit_eq_decide_div_mod_eq, decide_eq_true_iff]
  cases isWide with
  | false =>
    have hlt : thunk < 0x100000000 := hthunk
    simp only [ordinalMark, Bool.false_eq_true, if_false, Nat.reducePow]
    omega
  | true =>
    have hlt : thunk < 0x10000000000000000 := hthunk
    simp only [ordinalMark, if_true, Nat.reducePow]
    omega

/-- A hint and a name are read from the first bytes behind an address; of the name there has to be
at least one. -/
theorem hintName?_eq (space : AddressSpace) (rva : UInt32) {cap : Nat} (hcap : 0 < cap) :
    hintName? space rva cap =
      match space.tail? rva with
      | some (low :: high :: first :: rest) =>
        some (UInt16.ofNat (LittleEndian.toNat [low, high]),
          Utf8.decode (terminated cap (first :: rest)))
      | _ => none := by
  unfold hintName? AddressSpace.tail?
  cases space.offset? rva with
  | none => rfl
  | some offset =>
    have hinside : offset + 2 < space.bytes.size ↔
        2 < (space.bytes.octets.drop offset).length := by
      rw [List.length_drop, Bytes.length_octets]
      omega
    have hname : space.bytes.octets.drop (offset + 2) = (space.bytes.octets.drop offset).drop 2 :=
      List.drop_drop.symm
    dsimp only [Option.bind_eq_bind, Option.bind_some, Option.map_some]
    simp only [hinside, Bytes.u16, Bytes.natAt_eq, Bytes.textAt, Bytes.terminatedAt_eq, hname]
    obtain _ | ⟨low, _ | ⟨high, _ | ⟨first, rest⟩⟩⟩ := space.bytes.octets.drop offset
    · simp
    · simp
    · simp
    · simp [hcap]

/-- A number that a thunk can hold names the function that the thunk stands for. -/
theorem ofThunk_eq_decode (space : AddressSpace) {cap thunk : Nat} (hcap : 0 < cap)
    (hthunk : thunk < LittleEndian.range (thunkWidth space.isWide)) :
    ofThunk space cap thunk = decode space cap thunk := by
  unfold ofThunk decode
  simp only [ordinalMark_le_iff space.isWide hthunk, hintName?_eq space _ hcap]
  by_cases hmark : thunk.testBit (if space.isWide then 63 else 31) = true
  · rw [if_pos hmark, if_pos hmark]
    exact congrArg ordinal UInt16.ofNat_mod_size.symm
  · rw [if_neg hmark, if_neg hmark]
    obtain _ | _ | ⟨low, _ | ⟨high, _ | ⟨first, rest⟩⟩⟩ :=
      space.tail? (UInt32.ofNat (thunk % 0x80000000)) <;> rfl

/-- The functions at an address are those that its thunks stand for. -/
theorem map_ofThunk_thunks (space : AddressSpace) (rva : UInt32) {cap : Nat} (hcap : 0 < cap) :
    (thunks space rva).map (ofThunk space cap) = (thunks space rva).map (decode space cap) :=
  List.map_congr_left fun _ hthunk =>
    ofThunk_eq_decode space hcap (lt_range_of_mem_thunks hthunk)

end ImportEntry

/-- The thunks of a library: the whole numbers of eight bytes, or four in a narrow image, that are
stored from the first address on, or from the second if there is no first, before a zero. -/
def ImportDescriptor.storedThunks (space : AddressSpace) (descriptor : ImportDescriptor) :
    List Nat :=
  let rva := if descriptor.originalFirstThunk = 0 then descriptor.firstThunk
    else descriptor.originalFirstThunk
  ((space.storedWords? rva (if space.isWide then 8 else 4)).getD []).takeWhile (· ≠ 0)

/-- The thunks at the address of a descriptor are those stored for its library. -/
theorem ImportEntry.thunks_lookupRva (space : AddressSpace) (descriptor : ImportDescriptor) :
    thunks space descriptor.lookupRva = descriptor.storedThunks space := by
  rw [thunks, thunkWidth, ImportDescriptor.lookupRva, ImportDescriptor.storedThunks]

/-- The library of a descriptor, with a function for each thunk. -/
def ImportedLibrary.stored (space : AddressSpace) (cap : Nat) (descriptor : ImportDescriptor) :
    ImportedLibrary where
  name := Utf8.decode (terminated cap ((space.tail? descriptor.nameRva).getD []))
  descriptor := descriptor
  entries := (descriptor.storedThunks space).map (ImportEntry.decode space cap)

namespace ImportTable

/-- The table of all stored descriptors. -/
def stored (data : Bytes) (space : AddressSpace) (cap : Nat) : ImportTable :=
  ⟨(ImportDescriptor.stored data).map (ImportedLibrary.stored space cap)⟩

/-- A table is within the limits on its libraries, on the functions of each and on those of all. -/
structure Within (table : ImportTable) (limits : Limits) : Prop where
  libraries : table.libraries.length ≤ limits.importDescriptors
  thunks : ∀ library ∈ table.libraries, library.entries.length ≤ limits.thunksPerImport
  entries : table.entryCount ≤ limits.importEntries

/-- A directory whose names all lead somewhere is read as the table that is stored, provided that
the limits have room for that table. -/
theorem read_eq_stored (window : DirectoryWindow) (space : AddressSpace) (limits : Limits)
    (hsize : 20 ≤ window.data.size) (hcap : 0 < limits.stringLength)
    (hnames : ∀ descriptor ∈ ImportDescriptor.stored window.data,
      (space.tail? descriptor.nameRva).isSome)
    (hwithin : (stored window.data space limits.stringLength).Within limits) :
    read window space limits = .ok (stored window.data space limits.stringLength) := by
  have hdescriptors : ImportDescriptor.list window.data limits.importDescriptors =
      ImportDescriptor.stored window.data := by
    have hlength := hwithin.libraries
    rw [stored, List.length_map] at hlength
    rw [ImportDescriptor.list_eq_take, List.take_of_length_le hlength]
  have hentries : (stored window.data space limits.stringLength).libraries.map (·.entries) =
      (ImportDescriptor.stored window.data).map (allEntries space limits.stringLength) := by
    rw [stored, List.map_map]
    refine List.map_congr_left fun descriptor _ => ?_
    rw [Function.comp_apply, ImportedLibrary.stored, allEntries,
      ImportEntry.map_ofThunk_thunks space _ hcap, ImportEntry.thunks_lookupRva]
  refine (read_eq_ok ..).mpr ⟨hsize, ?_, ?_⟩
  · rw [hdescriptors, stored, List.map_map]
    refine List.map_congr_left fun descriptor hdescriptor => ?_
    obtain ⟨tail, htail⟩ := Option.isSome_iff_exists.mp (hnames descriptor hdescriptor)
    have hname := (AddressSpace.text_eq_ok space descriptor.nameRva limits.stringLength _).mpr
      ⟨hcap, tail, htail, rfl⟩
    rw [Function.comp_apply, hname, ImportedLibrary.stored, htail, Option.getD_some]
  · rw [hdescriptors, ← hentries]
    refine (cutEach_eq_self (fun entries hmem => ?_) hwithin.entries).symm
    obtain ⟨library, hlibrary, rfl⟩ := List.mem_map.mp hmem
    exact hwithin.thunks library hlibrary

/-- A narrow image with one library, whose descriptor has the second array of thunks only. -/
def sample : AddressSpace :=
  .flat 0x1000 (Bytes.ofOctets
    ([0, 0x5F5E1000, 0xFFFFFFFF, 0x1028, 0x102C, 0, 0, 0, 0, 0].flatMap (LittleEndian.ofNat 4) ++
      [0x61, 0x62, 0, 0] ++
      [0x80000007, 0x103C, 0x7F000000, 0].flatMap (LittleEndian.ofNat 4) ++
      [5, 0, 0x66, 0x67, 0])) false

/-- A wide image with two libraries. The first one has both arrays of thunks, the second of which
starts later, and the other library has the second array only. The thunk of the name has a bit that
would mark an ordinal in a narrow image. -/
def wideSample : AddressSpace :=
  .flat 0x1000 (Bytes.ofOctets
    ([0x1040, 0x5F5E1000, 0xFFFFFFFF, 0x103C, 0x1048, 0, 1, 2, 0x103D, 0x1048, 0, 0, 0, 0,
        0].flatMap (LittleEndian.ofNat 4) ++
      [0x61, 0x62, 0, 0] ++
      [0x8000000000000007, 0x80001058, 0].flatMap (LittleEndian.ofNat 8) ++
      [5, 0, 0x66, 0x67, 0])) true

/-- A name that leads nowhere keeps its place among the functions of a narrow library. The thunks of
a wide one are those of the first array, as far as it has one. -/
theorem read_eq_stored_samples :
    read (sample.window 0x1000 40) sample Limits.standard = .ok ⟨[{
      name := "ab"
      descriptor := ⟨0, 0x5F5E1000, 0xFFFFFFFF, 0x1028, 0x102C⟩
      entries := [.ordinal 7, .named 5 "fg", .unresolved 0x7F000000] }]⟩ ∧
    read (wideSample.window 0x1000 60) wideSample Limits.standard = .ok ⟨[{
      name := "ab"
      descriptor := ⟨0x1040, 0x5F5E1000, 0xFFFFFFFF, 0x103C, 0x1048⟩
      entries := [.ordinal 7, .named 5 "fg"] }, {
      name := "b"
      descriptor := ⟨0, 1, 2, 0x103D, 0x1048⟩
      entries := [.named 5 "fg"] }]⟩ := by
  have hnarrow := read_eq_stored (sample.window 0x1000 40) sample Limits.standard (by decide)
    (by decide) (by decide) ⟨by decide, by decide, by decide⟩
  have hwide := read_eq_stored (wideSample.window 0x1000 60) wideSample Limits.standard
    (by decide) (by decide) (by decide) ⟨by decide, by decide, by decide⟩
  rw [hnarrow, hwide]
  exact ⟨rfl, rfl⟩

end ImportTable

end PeImage
