import PeImage.Proofs.Image.Sections

/-!
# Written headers

The bytes that the headers of an image are written as, and what is read from a file that has them.
Each header is given by the values that an image is free to choose. The other fields have the values
that linkers commonly leave there, and so has every byte that no field takes. Reading a header
undoes writing it wherever its bytes stand in the file and whatever stands around them.
-/

namespace PeImage

open LittleEndian

variable {file : Bytes} {offset : Nat}

/-- Zeros stand for the number zero. -/
theorem LittleEndian.toNat_replicate_zero (count : Nat) : toNat (List.replicate count 0) = 0 := by
  induction count with
  | zero => rfl
  | succ count ih => simp [List.replicate_succ, toNat, ih]

namespace DosHeader

/-- The bytes of a DOS header without a program. -/
def octets (place : UInt32) : List UInt8 :=
  word16 signature ++ List.replicate 58 0 ++ word32 place

@[simp] theorem length_octets (place : UInt32) : (octets place).length = byteSize := by
  simp [octets, byteSize]

/-- The image header is found at the place that is written, if its signature stands there. -/
theorem imageHeaderPlace_of_stores {place : UInt32} (hdos : file.Stores 0 (octets place))
    (himage : file.Stores place.toNat (word32 imageSignature)) (hplace : byteSize ≤ place.toNat) :
    imageHeaderPlace file = .ok place := by
  simp only [octets, Bytes.stores_append, List.length_append, List.length_replicate,
    length_word16, Bytes.stores_word16, Bytes.stores_word32] at hdos himage
  obtain ⟨⟨⟨_, hsignature⟩, _⟩, _, hpointer⟩ := hdos
  exact (imageHeaderPlace_eq_ok ..).mpr ⟨hsignature, hpointer, himage.1, himage.2, hplace⟩

end DosHeader

namespace RichHeader

/-- Zeros hold no rich header. -/
theorem checkStub_replicate_zero (count : Nat) :
    checkStub (.ofOctets (List.replicate count 0)) = .ok () := by
  have hword (offset : Nat) : Bytes.u32 (.ofOctets (List.replicate count 0)) offset = 0 := by
    rw [Bytes.u32, Bytes.natAt_eq, Bytes.octets_ofOctets, List.drop_replicate,
      List.take_replicate, toNat_replicate_zero]
    rfl
  have hnone : firstOffset? (.ofOctets (List.replicate count 0)) 8
      (Bytes.u32 (.ofOctets (List.replicate count 0)) · = stopMark) = none := by
    simp [firstOffset?, hword, stopMark]
  rw [checkStub, hnone]

/-- There is no rich header where zeros stand between the DOS header and the image header. -/
theorem check_of_stores {place : Nat}
    (h : file.Stores DosHeader.byteSize (List.replicate (place - DosHeader.byteSize) 0)) :
    check file place = .ok () := by
  rw [Bytes.stores_iff_octetsAt, List.length_replicate] at h
  have hstub : file.clip DosHeader.byteSize (place - DosHeader.byteSize) =
      .ofOctets (List.replicate (place - DosHeader.byteSize) 0) := Bytes.ext_octets h
  rw [DosHeader.byteSize] at hstub
  rw [check, hstub, checkStub_replicate_zero, ite_self]

end RichHeader

namespace StoredFileHeader

/-- The bytes of a file header. -/
def octets (header : StoredFileHeader) : List UInt8 :=
  word16 header.machine ++ word16 header.sectionCount ++ word32 header.timeDateStamp ++
    word32 header.symbolTable ++ word32 header.symbolCount ++ word16 header.optionalSize ++
    word16 header.characteristics

@[simp] theorem length_octets (header : StoredFileHeader) : header.octets.length = byteSize := by
  simp [octets, byteSize]

/-- A file header is read exactly where it is stored. -/
theorem read_eq_ok_iff_stores (file : Bytes) (offset : Nat) (header : StoredFileHeader) :
    read file offset = .ok header ↔ file.Stores offset header.octets := by
  simp only [octets, Bytes.stores_append, List.length_append, length_word16, length_word32,
    Bytes.stores_word16, Bytes.stores_word32]
  rw [read_eq_ok, byteSize]
  constructor
  · rintro ⟨hinside, rfl⟩
    simp only [readAt, and_true]
    omega
  · rintro ⟨⟨⟨⟨⟨⟨⟨_, hmachine⟩, _, hcount⟩, _, htime⟩, _, htable⟩, _, hsymbols⟩, _, hsize⟩,
      hinside, hflags⟩
    refine ⟨hinside, ?_⟩
    rw [readAt, hmachine, hcount, htime, htable, hsymbols, hsize, hflags]

end StoredFileHeader

/-- The address that an image prefers to be loaded at. It is as wide as all addresses of the image,
so it tells the two kinds of images apart. -/
inductive PreferredBase
  | narrow (address : UInt32)
  | wide (address : UInt64)
  deriving DecidableEq, Repr

namespace PreferredBase

/-- Whether the image is a wide one. -/
def isWide : PreferredBase → Bool
  | narrow _ => false
  | wide _ => true

/-- The magic number of the image. -/
def magic : PreferredBase → UInt16
  | narrow _ => 0x10B
  | wide _ => 0x20B

/-- The address. -/
def address : PreferredBase → UInt64
  | narrow address => address.toUInt64
  | wide address => address

/-- The bytes of the address. A narrow image has the start of its data in front of it. -/
def octets : PreferredBase → List UInt8
  | narrow address => word32 0x2000 ++ word32 address
  | wide address => word64 address

@[simp] theorem length_octets (base : PreferredBase) : base.octets.length = 8 := by
  cases base <;> simp [octets]

/-- The magic number is that of the kind. -/
theorem magic_eq_magicWide (base : PreferredBase) :
    decide (base.magic = OptionalHeader.magicWide) = base.isWide := by
  cases base <;> rfl

/-- Every image is of one of the two kinds. -/
theorem magic_eq_or (base : PreferredBase) :
    base.magic = OptionalHeader.magic32 ∨ base.magic = OptionalHeader.magicWide := by
  cases base with
  | narrow _ => exact Or.inl rfl
  | wide _ => exact Or.inr rfl

/-- The address is read where its kind has it. -/
theorem address_of_stores {base : PreferredBase} (h : file.Stores offset base.octets) :
    (if base.isWide then file.u64 offset else (file.u32 (offset + 4)).toUInt64) =
      base.address := by
  cases base with
  | narrow address =>
    rw [octets, Bytes.stores_append, length_word32, Bytes.stores_word32 _ (offset + 4)] at h
    exact congrArg UInt32.toUInt64 h.2.2
  | wide address => exact ((Bytes.stores_word64 ..).mp h).2

end PreferredBase

namespace DirectoryRange

/-- The bytes of an entry of the directory array. -/
def octets (range : DirectoryRange) : List UInt8 := word32 range.address ++ word32 range.size

/-- What an entry declares: a table, unless it is two zeros. -/
def declared? (range : DirectoryRange) : Option DirectoryRange :=
  if range.address = 0 ∧ range.size = 0 then none else some range

@[simp] theorem length_octets (range : DirectoryRange) : range.octets.length = 8 := by
  simp [octets]

/-- An entry declares itself or nothing. -/
theorem declared?_eq_some (range other : DirectoryRange) :
    range.declared? = some other ↔ range = other ∧ other ≠ ⟨0, 0⟩ := by
  obtain ⟨address, size⟩ := range
  simp only [declared?, Option.ite_none_left_eq_some, Option.some.injEq]
  constructor
  · rintro ⟨hused, rfl⟩
    exact ⟨rfl, fun h => hused (DirectoryRange.mk.inj h)⟩
  · rintro ⟨rfl, hused⟩
    exact ⟨fun h => hused (DirectoryRange.mk.injEq .. ▸ h), rfl⟩

end DirectoryRange

/-- The tables of a stored directory array are those that its entries declare. -/
theorem OptionalHeader.directoriesAt_of_stores {ranges : Vector DirectoryRange 16}
    (h : file.Stores offset (ranges.toList.flatMap DirectoryRange.octets)) :
    offset + 128 ≤ file.size ∧
      directoriesAt file offset 16 = ⟨ranges.map DirectoryRange.declared?⟩ := by
  rw [Bytes.stores_flatMap DirectoryRange.length_octets] at h
  have hentry (i : Nat) (hi : i < 16) : file.Stores (offset + 8 * i) ranges[i].octets :=
    h i ranges[i] (by simp [hi])
  simp only [DirectoryRange.octets, Bytes.stores_append, length_word32, Bytes.stores_word32]
    at hentry
  constructor
  · have hlast := (hentry 15 (by decide)).2.1
    omega
  · rw [directoriesAt, DirectoryMap.mk.injEq]
    refine Vector.ext fun i hi => ?_
    obtain ⟨⟨_, haddress⟩, _, hsize⟩ := hentry i hi
    rw [Vector.getElem_ofFn, if_pos hi, Vector.getElem_map, rangeAt?]
    simp only [haddress, hsize, DirectoryRange.declared?]

/-- The values that an optional header is free to choose, with all sixteen entries of the directory
array. -/
structure OptionalDescription where
  entryPoint : UInt32
  base : PreferredBase
  sizeOfImage : UInt32
  dllCharacteristics : UInt16
  directories : Vector DirectoryRange 16
  deriving DecidableEq, Repr

namespace OptionalDescription

/-- The bytes of the fields up to the preferred address. They take the same room in both kinds of
images. -/
def standardOctets (description : OptionalDescription) : List UInt8 :=
  word16 description.base.magic ++ [14] ++ List.replicate 13 0 ++
    word32 description.entryPoint ++ word32 0x1000 ++ description.base.octets

/-- The bytes of the fields from the alignments to the length of the directory array. The kinds
differ in the width of the last ones, which are zero. -/
def windowsOctets (description : OptionalDescription) : List UInt8 :=
  word32 0x1000 ++ word32 0x200 ++ word16 6 ++ List.replicate 6 0 ++ word16 6 ++
    List.replicate 6 0 ++ word32 description.sizeOfImage ++ word32 0x400 ++
    List.replicate 4 0 ++ word16 3 ++ word16 description.dllCharacteristics ++
    List.replicate (if description.base.isWide then 36 else 20) 0

/-- The bytes of the header. -/
def octets (description : OptionalDescription) : List UInt8 :=
  description.standardOctets ++ description.windowsOctets ++ word32 16 ++
    description.directories.toList.flatMap DirectoryRange.octets

/-- The header. -/
def header (description : OptionalDescription) : OptionalHeader where
  magic := description.base.magic
  entryPoint := description.entryPoint
  imageBase := description.base.address
  sectionAlignment := 0x1000
  fileAlignment := 0x200
  sizeOfImage := description.sizeOfImage
  sizeOfHeaders := 0x400
  subsystem := 3
  dllCharacteristics := description.dllCharacteristics
  directories := ⟨description.directories.map DirectoryRange.declared?⟩

/-- A table is declared by the entry at its place. -/
theorem directory?_header (description : OptionalDescription) (key : DirectoryKey) :
    description.header.directory? key = (description.directories.get key.index).declared? := by
  rw [OptionalHeader.directory?, DirectoryMap.get?, header]
  exact Vector.getElem_map _ key.index.isLt

theorem length_standardOctets (description : OptionalDescription) :
    description.standardOctets.length = 32 := by
  simp [standardOctets]

theorem length_windowsOctets (description : OptionalDescription) :
    32 + description.windowsOctets.length =
      OptionalHeader.directoryCountOffset description.base.isWide := by
  simp only [windowsOctets, OptionalHeader.directoryCountOffset, List.length_append,
    List.length_replicate, length_word16, length_word32]
  split <;> rfl

theorem length_octets (description : OptionalDescription) :
    description.octets.length = if description.base.isWide then 0xF0 else 0xE0 := by
  have htables : (description.directories.toList.flatMap DirectoryRange.octets).length = 128 := by
    simp [List.length_flatMap, List.map_const']
  simp only [octets, List.length_append, length_standardOctets, length_windowsOctets, htables,
    length_word32, OptionalHeader.directoryCountOffset]
  split <;> rfl

/-- The header is stored in four parts. -/
theorem stores_octets {description : OptionalDescription}
    (h : file.Stores offset description.octets) :
    let place := offset + OptionalHeader.directoryCountOffset description.base.isWide
    file.Stores offset description.standardOctets ∧
      file.Stores (offset + 32) description.windowsOctets ∧
      file.u32 place = 16 ∧
      file.Stores (place + 4) (description.directories.toList.flatMap DirectoryRange.octets) := by
  simp only [octets, Bytes.stores_append, List.length_append, length_standardOctets,
    length_windowsOctets, length_word32, Bytes.stores_word32, ← Nat.add_assoc] at h
  obtain ⟨⟨⟨hstandard, hwindows⟩, _, hcount⟩, hdirectories⟩ := h
  exact ⟨hstandard, hwindows, hcount, hdirectories⟩

/-- The magic number of the kind stands at the front. -/
theorem magic_of_stores {description : OptionalDescription}
    (h : file.Stores offset description.octets) : file.u16 offset = description.base.magic := by
  have hstandard := (stores_octets h).1
  simp only [standardOctets, Bytes.stores_append, Bytes.stores_word16, and_assoc] at hstandard
  exact hstandard.2.1

/-- The fields are read where they are stored. -/
theorem readAt_of_stores {description : OptionalDescription}
    (h : file.Stores offset description.octets) :
    OptionalHeader.readAt file offset description.base.isWide = description.header := by
  obtain ⟨hstandard, hwindows, hcount, hdirectories⟩ := stores_octets h
  have htables := (OptionalHeader.directoriesAt_of_stores hdirectories).2
  -- Each run of fields comes apart into one fact for each field, at the offset of the field.
  simp only [standardOctets, Bytes.stores_append, List.length_append, List.length_replicate,
    List.length_singleton, length_word16, length_word32, Bytes.stores_word16,
    Bytes.stores_word32, Nat.reduceAdd, and_assoc] at hstandard
  obtain ⟨_, hmagic, _, _, _, hentry, _, _, hbase⟩ := hstandard
  simp only [windowsOctets, Bytes.stores_append, List.length_append, List.length_replicate,
    length_word16, length_word32, Bytes.stores_word16, Bytes.stores_word32, Nat.add_assoc,
    Nat.reduceAdd, and_assoc] at hwindows
  obtain ⟨_, hsection, _, hfile, _, _, _, _, _, _, _, himage, _, hheaders, _, _, hsubsystem, _,
    hflags, _⟩ := hwindows
  have hsixteen : (16 : UInt32).toNat = 16 := rfl
  simp only [OptionalHeader.readAt, header, hmagic, hentry,
    PreferredBase.address_of_stores hbase, hsection, hfile, himage, hheaders, hsubsystem, hflags,
    hcount, hsixteen, htables]

/-- The optional header is read where it is stored. -/
theorem read_of_stores {description : OptionalDescription}
    (h : file.Stores offset description.octets) :
    OptionalHeader.read file offset = .ok description.header := by
  obtain ⟨_, _, hcount, hdirectories⟩ := stores_octets h
  have hinside := (OptionalHeader.directoriesAt_of_stores hdirectories).1
  apply (OptionalHeader.read_eq_ok ..).mpr
  simp only [magic_of_stores h, PreferredBase.magic_eq_magicWide, hcount]
  exact ⟨description.base.magic_eq_or, hinside, readAt_of_stores h⟩

end OptionalDescription

/-- A raw name is read where it is stored. -/
theorem SectionHeader.rawNameAt_of_stores {rawName : Vector UInt8 8}
    (h : file.Stores offset rawName.toList) : rawNameAt file offset = rawName := by
  have hinside := h.length_le
  rw [Vector.length_toList] at hinside
  have hread : file.Stores offset (rawNameAt file offset).toList :=
    stores_rawNameAt (by omega)
  rw [Bytes.stores_iff_octetsAt, Vector.length_toList] at h hread
  exact Vector.toList_inj.mp (hread.symm.trans h)

/-- The values that a section header is free to choose. The raw name does not stand for a long
name. -/
structure SectionDescription where
  rawName : Vector UInt8 8
  virtualSize : UInt32
  virtualAddress : UInt32
  rawSize : UInt32
  rawPointer : UInt32
  flags : UInt32
  short : rawName[0] ≠ 0x2F

namespace SectionDescription

/-- The bytes of the header. -/
def octets (description : SectionDescription) : List UInt8 :=
  description.rawName.toList ++ word32 description.virtualSize ++
    word32 description.virtualAddress ++ word32 description.rawSize ++
    word32 description.rawPointer ++ List.replicate 12 0 ++ word32 description.flags

/-- The header at a position in the section table. -/
def header (description : SectionDescription) (number : Nat) : SectionHeader where
  name := Utf8.decode (description.rawName.toList.takeWhile (· ≠ 0))
  rawName := description.rawName
  number := number
  virtualSize := description.virtualSize
  virtualAddress := description.virtualAddress
  rawSize := description.rawSize
  rawPointer := description.rawPointer
  flags := ⟨description.flags⟩

@[simp] theorem length_octets (description : SectionDescription) :
    description.octets.length = SectionHeader.byteSize := by
  simp [octets, SectionHeader.byteSize]

/-- A raw name that does not start with a slash stands for no long name. -/
theorem longName?_rawName (description : SectionDescription) (file : Bytes) (longNames : Nat) :
    SectionName.longName? file longNames description.rawName.toList = .ok none := by
  have hhead : description.rawName.toList.head? ≠ some 0x2F := by
    rw [List.head?_eq_getElem?]
    simpa using description.short
  rw [SectionName.longName?, SectionName.distance?, if_pos hhead]
  rfl

/-- A section header is read where it is stored. -/
theorem read_of_stores {description : SectionDescription}
    (h : file.Stores offset description.octets) (longNames number : Nat) :
    SectionHeader.read file longNames offset number = .ok (description.header number) := by
  simp only [octets, Bytes.stores_append, List.length_append, List.length_replicate,
    Vector.length_toList, length_word32, Bytes.stores_word32, Nat.reduceAdd, and_assoc] at h
  obtain ⟨hname, _, hvirtualSize, _, hvirtualAddress, _, hrawSize, _, hrawPointer, _, hinside,
    hflags⟩ := h
  have hrawName := SectionHeader.rawNameAt_of_stores hname
  refine (SectionHeader.read_eq_ok ..).mpr ⟨hinside, none, ?_, ?_⟩
  · rw [hrawName, longName?_rawName]
  · rw [SectionHeader.readAt, hrawName, hvirtualSize, hvirtualAddress, hrawSize, hrawPointer,
      hflags]
    rfl

end SectionDescription

/-- The rows of a section table are read where they are stored one behind the other. -/
theorem SectionTable.readRows_of_stores {descriptions : List SectionDescription}
    (h : file.Stores offset (descriptions.flatMap SectionDescription.octets))
    (longNames number : Nat) :
    readRows file longNames offset number descriptions.length =
      .ok (descriptions.mapIdx fun i description => description.header (number + i)) := by
  induction descriptions generalizing offset number with
  | nil => rfl
  | cons description rest ih =>
    rw [List.flatMap_cons, Bytes.stores_append, SectionDescription.length_octets] at h
    rw [List.length_cons, readRows, SectionDescription.read_of_stores h.1, ok_bind, ih h.2,
      ok_bind, List.mapIdx_cons]
    simp only [Nat.add_zero, Nat.add_assoc, Nat.add_comm 1]
    rfl

end PeImage
