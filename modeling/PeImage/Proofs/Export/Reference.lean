import Mathlib.Data.List.Basic
import PeImage.Proofs.Export.Entries

/-!
# The export table that is stored

The whole table, said without a reader. The directory is a record of words at fixed places of its
bytes. The array of addresses, the array of name addresses and that of their positions each end at
the declared number, at the limit or with the file, whichever comes first. Every address but zero is
an export; it takes the first readable name that is paired with its position, and it is a forwarder
if it lies in the directory itself. A directory is read as this table, unless it is too short or its
addresses lead nowhere.
-/

namespace PeImage

namespace ExportDirectory

/-- The directory of the words in its bytes. -/
def ofOctets (octets : List UInt8) : ExportDirectory where
  characteristics := LittleEndian.word32Of octets 0
  timeDateStamp := LittleEndian.word32Of octets 4
  majorVersion := LittleEndian.word16Of octets 8
  minorVersion := LittleEndian.word16Of octets 10
  nameRva := LittleEndian.word32Of octets 12
  ordinalBase := LittleEndian.word32Of octets 16
  functionCount := LittleEndian.word32Of octets 20
  nameCount := LittleEndian.word32Of octets 24
  addressesRva := LittleEndian.word32Of octets 28
  namePointersRva := LittleEndian.word32Of octets 32
  nameOrdinalsRva := LittleEndian.word32Of octets 36

/-- The directory that is read is that of the words in the bytes. -/
theorem read_eq_ofOctets (data : Bytes) : read data = ofOctets data.octets := by
  simp only [read, ofOctets, Bytes.u16_eq_word16Of, Bytes.u32_eq_word32Of]

end ExportDirectory

/-- The text of a forwarder: it starts at the address, which has to lie in the directory, and ends
with the directory at the latest. -/
def DirectoryWindow.storedForwarder (window : DirectoryWindow) (cap : Nat) (rva : UInt32) :
    Option String :=
  if window.rva.toNat ≤ rva.toNat ∧ rva.toNat < window.rva.toNat + window.data.size then
    some (Utf8.decode (terminated cap (window.data.octets.drop (rva.toNat - window.rva.toNat))))
  else none

namespace ExportTable

/-- The addresses of functions that are stored, cut to their number and to the limit. -/
def storedAddresses (space : AddressSpace) (limits : Limits) (directory : ExportDirectory) :
    List UInt32 :=
  (((space.storedWords? directory.addressesRva 4).getD []).map UInt32.ofNat).take
    (min directory.functionCount.toNat limits.exports)

/-- The stored addresses of names with the positions at the same places, both cut to their number
and to the limit. There are none if either array leads nowhere. -/
def storedPairs (space : AddressSpace) (limits : Limits) (directory : ExportDirectory) :
    List (UInt32 × Nat) :=
  let count := min directory.nameCount.toNat limits.exports
  match space.storedWords? directory.namePointersRva 4,
    space.storedWords? directory.nameOrdinalsRva 2 with
  | some pointers, some positions =>
    ((pointers.map UInt32.ofNat).take count).zip (positions.take count)
  | _, _ => []

/-- The first name paired with a position whose text is there. -/
def storedName (space : AddressSpace) (cap : Nat) (pairs : List (UInt32 × Nat)) (position : Nat) :
    Option String :=
  pairs.findSome? fun pair =>
    if pair.2 = position then space.storedText? pair.1 cap else none

/-- The export at a position with a given address. -/
def storedEntry (window : DirectoryWindow) (space : AddressSpace) (limits : Limits)
    (directory : ExportDirectory) (rva : UInt32) (position : Nat) : ExportEntry where
  ordinal := UInt32.ofNat ((directory.ordinalBase.toNat + position) % 0x100000000)
  rva := rva
  name := storedName space limits.stringLength (storedPairs space limits directory) position
  forwarder := window.storedForwarder limits.stringLength rva

/-- The table of all addresses that are not zero. -/
def stored (window : DirectoryWindow) (space : AddressSpace) (limits : Limits) : ExportTable :=
  let directory := ExportDirectory.ofOctets window.data.octets
  { directory := directory
    name := space.storedText? directory.nameRva limits.stringLength
    entries := (storedAddresses space limits directory).zipIdx.filterMap fun (rva, position) =>
      if rva = 0 then none else some (storedEntry window space limits directory rva position) }

/-- The addresses are read exactly when there are none to be read or they lead somewhere. -/
theorem addresses_eq_ok (space : AddressSpace) (limits : Limits) (directory : ExportDirectory)
    (words : List UInt32) :
    addresses space limits directory = .ok words ↔
      (min directory.functionCount.toNat limits.exports = 0 ∨
        (space.tail? directory.addressesRva).isSome) ∧
        words = storedAddresses space limits directory := by
  unfold addresses storedAddresses
  generalize min directory.functionCount.toNat limits.exports = count
  dsimp only
  rw [AddressSpace.words?_eq_stored, AddressSpace.storedWords?]
  cases count with
  | zero => rw [if_pos rfl, List.take_zero, Except.ok.injEq, eq_comm, and_iff_right (Or.inl rfl)]
  | succ count =>
    cases space.tail? directory.addressesRva with
    | none => simp
    | some tail =>
      rw [if_neg (Nat.succ_ne_zero count), and_iff_right (Or.inr Option.isSome_some)]
      dsimp only [Option.map_some, Option.getD_some]
      rw [List.map_take, Except.ok.injEq, eq_comm]

/-- The pairs that are read are the stored ones. -/
theorem namePairs_eq_stored (space : AddressSpace) (limits : Limits)
    (directory : ExportDirectory) :
    namePairs space limits directory = storedPairs space limits directory := by
  unfold namePairs storedPairs
  generalize min directory.nameCount.toNat limits.exports = count
  dsimp only
  rw [AddressSpace.words?_eq_stored, AddressSpace.words?_eq_stored]
  cases space.storedWords? directory.namePointersRva 4 with
  | none => rfl
  | some pointers =>
    cases space.storedWords? directory.nameOrdinalsRva 2 with
    | none => rfl
    | some positions => simp [List.map_take]

/-- The paired name that is read is the stored one. -/
theorem pairedName_eq_stored (space : AddressSpace) (cap : Nat) (pairs : List (UInt32 × Nat))
    (position : Nat) : pairedName space cap pairs position = storedName space cap pairs position := by
  unfold pairedName storedName
  congr 1
  funext pair
  rw [AddressSpace.text?_eq_stored]

/-- An address is read as a forwarder when it lies in the directory. -/
theorem forwarder_eq_stored (window : DirectoryWindow) (cap : Nat) (rva : UInt32) :
    (window.offset? rva).map (window.data.textAt · cap) = window.storedForwarder cap rva := by
  have hinside : (window.rva ≤ rva ∧ rva.toNat - window.rva.toNat < window.data.size) ↔
      window.rva.toNat ≤ rva.toNat ∧ rva.toNat < window.rva.toNat + window.data.size := by
    rw [UInt32.le_iff_toNat_le]
    omega
  unfold DirectoryWindow.offset? DirectoryWindow.storedForwarder
  simp only [hinside]
  split
  · rw [Option.map_some, Bytes.textAt, Bytes.terminatedAt_eq]
  · rfl

/-- What is read at a position of the array is the stored export. -/
theorem entry?_eq_stored (window : DirectoryWindow) (space : AddressSpace) (limits : Limits)
    (directory : ExportDirectory) (rva : UInt32) {count position : Nat} (h : position < count) :
    entry? window limits.stringLength directory.ordinalBase
        (names space limits.stringLength count (namePairs space limits directory)) rva position =
      if rva = 0 then none else some (storedEntry window space limits directory rva position) := by
  have hordinal : directory.ordinalBase + UInt32.ofNat position =
      UInt32.ofNat ((directory.ordinalBase.toNat + position) % 0x100000000) := by
    rw [UInt32.ofNat_mod_size, UInt32.ofNat_add, UInt32.ofNat_toNat]
  unfold entry? storedEntry
  rw [names_getD space limits.stringLength _ h, pairedName_eq_stored, namePairs_eq_stored,
    forwarder_eq_stored, hordinal]

/-- The table that is read with the stored addresses is the stored one. -/
theorem ofAddresses_stored (window : DirectoryWindow) (space : AddressSpace) (limits : Limits) :
    ofAddresses window space limits
        (storedAddresses space limits (.ofOctets window.data.octets)) =
      stored window space limits := by
  unfold ofAddresses stored
  dsimp only
  rw [ExportDirectory.read_eq_ofOctets, AddressSpace.text?_eq_stored, mk.injEq]
  refine ⟨rfl, rfl, List.filterMap_congr fun pair hpair => ?_⟩
  obtain ⟨rva, position⟩ := pair
  have hinside := List.snd_lt_of_mem_zipIdx hpair
  rw [Nat.add_zero] at hinside
  exact entry?_eq_stored window space limits (.ofOctets window.data.octets) rva hinside

/-- A table is read exactly when the fixed part of the directory is there, and the array of
addresses too if it has to be. -/
theorem exists_read_eq_ok (window : DirectoryWindow) (space : AddressSpace) (limits : Limits) :
    (∃ table, read window space limits = .ok table) ↔
      40 ≤ window.data.size ∧
        (min (ExportDirectory.ofOctets window.data.octets).functionCount.toNat
            limits.exports = 0 ∨
          (space.tail? (ExportDirectory.ofOctets window.data.octets).addressesRva).isSome) := by
  simp only [read_eq_ok, ExportDirectory.read_eq_ofOctets, addresses_eq_ok]
  apply Iff.intro
  · intro h
    obtain ⟨_, hsize, _, ⟨hresolves, _⟩, _⟩ := h
    exact ⟨hsize, hresolves⟩
  · intro h
    obtain ⟨hsize, hresolves⟩ := h
    exact ⟨_, hsize, _, ⟨hresolves, rfl⟩, rfl⟩

/-- A table that is read is the stored one. -/
theorem eq_stored_of_read {window : DirectoryWindow} {space : AddressSpace} {limits : Limits}
    {table : ExportTable} (h : read window space limits = .ok table) :
    table = stored window space limits := by
  obtain ⟨_, words, hwords, htable⟩ := (read_eq_ok ..).mp h
  rw [ExportDirectory.read_eq_ofOctets] at hwords
  rw [htable, ((addresses_eq_ok ..).mp hwords).2, ofAddresses_stored]

/-- A directory is read exactly when its fixed part fits and its addresses, if there are any, lead
somewhere, and it is read as the stored table. -/
theorem read_eq_ok_iff_stored (window : DirectoryWindow) (space : AddressSpace) (limits : Limits)
    (table : ExportTable) :
    read window space limits = .ok table ↔
      40 ≤ window.data.size ∧
        (min (ExportDirectory.ofOctets window.data.octets).functionCount.toNat
            limits.exports = 0 ∨
          (space.tail? (ExportDirectory.ofOctets window.data.octets).addressesRva).isSome) ∧
        table = stored window space limits := by
  rw [← and_assoc, ← exists_read_eq_ok]
  apply Iff.intro
  · intro h
    exact ⟨⟨table, h⟩, eq_stored_of_read h⟩
  · intro h
    obtain ⟨⟨found, hfound⟩, rfl⟩ := h
    rw [hfound, eq_stored_of_read hfound]

/-- A narrow image with three exported positions, the second of which is not in use. The ordinals
start with the last one there is, the third address is in the directory, and both exports have the
same name. -/
def wrapping : AddressSpace :=
  .flat 0x1000 (Bytes.ofOctets
    ([0, 0, 0, 0x1040, 0xFFFFFFFF, 3, 2, 0x1028, 0x1034, 0x103C, 0x5000, 0, 0x1027, 0x1040,
        0x1040].flatMap (LittleEndian.ofNat 4) ++
      [2, 0].flatMap (LittleEndian.ofNat 2) ++ [0x61, 0x62, 0])) false

/-- The export at the first position. -/
def wrappingFirst : ExportEntry := ⟨0xFFFFFFFF, 0x5000, some "ab", none⟩

/-- The export at the third position. -/
def wrappingLast : ExportEntry := ⟨1, 0x1027, some "ab", some ""⟩

/-- The ordinal of the first export is the last one there is, and that of the other wraps around. -/
theorem read_eq_ok_iff_stored_wrapping :
    read (wrapping.window 0x1000 40) wrapping Limits.standard = .ok {
      directory := ⟨0, 0, 0, 0, 0x1040, 0xFFFFFFFF, 3, 2, 0x1028, 0x1034, 0x103C⟩
      name := some "ab"
      entries := [wrappingFirst, wrappingLast] } :=
  (read_eq_ok_iff_stored ..).mpr ⟨by decide, by decide, rfl⟩

end ExportTable

end PeImage
