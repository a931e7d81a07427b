import PeImage.Proofs.Image.Written

/-!
# Loading what was written

An image description chooses the machine, the time stamp, the values of the optional header with
sixteen directories, and the sections. It is written as the headers of an image of one of the two
kinds, in the order in which they are decoded. Loading a file that starts with these headers gives
back everything that was chosen, whatever follows them.
-/

namespace PeImage

open LittleEndian

/-- The values that the headers of an image are free to choose. The reserved directory is not in
use. -/
structure ImageDescription where
  machine : UInt16
  timeDateStamp : UInt32
  optional : OptionalDescription
  sections : List SectionDescription
  countable : sections.length ≤ 0xFFFF
  reserved : optional.directories[15] = ⟨0, 0⟩

namespace ImageDescription

variable {file : Bytes} {description : ImageDescription}

/-- The file header, without symbols. -/
def fileHeader (description : ImageDescription) : StoredFileHeader where
  machine := description.machine
  sectionCount := UInt16.ofNat description.sections.length
  timeDateStamp := description.timeDateStamp
  symbolTable := 0
  symbolCount := 0
  optionalSize := if description.optional.base.isWide then 0xF0 else 0xE0
  characteristics := 0x2102

/-- The section headers, numbered from one. -/
def sectionHeaders (description : ImageDescription) : List SectionHeader :=
  description.sections.mapIdx fun i declared => declared.header (i + 1)

/-- The headers. -/
def headers (description : ImageDescription) : Headers where
  fileHeader := description.fileHeader.toFileHeader
  optional := description.optional.header
  sections := ⟨description.sectionHeaders⟩

/-- The bytes of the headers, with a gap of zeros behind the DOS header. -/
def octets (description : ImageDescription) : List UInt8 :=
  DosHeader.octets 0x80 ++ List.replicate 64 0 ++ word32 DosHeader.imageSignature ++
    description.fileHeader.octets ++ description.optional.octets ++
    description.sections.flatMap SectionDescription.octets

/-- The optional header has the announced size. -/
theorem optionalSize_eq (description : ImageDescription) :
    description.fileHeader.optionalSize.toNat = description.optional.octets.length := by
  rw [OptionalDescription.length_octets, fileHeader]
  split <;> rfl

/-- The announced sections are all that are described. -/
theorem sectionCount_eq (description : ImageDescription) :
    description.fileHeader.sectionCount.toNat = description.sections.length :=
  UInt16.toNat_ofNat_of_lt' (Nat.lt_succ_of_le description.countable)

/-- The headers are stored one behind the other. -/
theorem stores_octets (h : file.Stores 0 description.octets) :
    file.Stores 0 (DosHeader.octets 0x80) ∧
      file.Stores DosHeader.byteSize (List.replicate 64 0) ∧
      file.Stores 0x80 (word32 DosHeader.imageSignature) ∧
      file.Stores 0x84 description.fileHeader.octets ∧
      file.Stores 0x98 description.optional.octets ∧
      file.Stores (0x98 + description.fileHeader.optionalSize.toNat)
        (description.sections.flatMap SectionDescription.octets) := by
  rw [optionalSize_eq]
  simpa only [octets, Bytes.stores_append, List.length_append, List.length_replicate,
    DosHeader.length_octets, length_word32, StoredFileHeader.length_octets, DosHeader.byteSize,
    StoredFileHeader.byteSize, ← Nat.add_assoc, Nat.reduceAdd, and_assoc] using h

/-- The reserved directory is not declared. -/
theorem directory?_reserved (description : ImageDescription) :
    description.optional.header.directory? .reserved = none := by
  rw [OptionalDescription.directory?_header]
  exact congrArg DirectoryRange.declared? description.reserved

/-- The headers are decoded where they are stored at the front of a file. -/
theorem read_of_stores (h : file.Stores 0 description.octets) :
    Headers.read file = .ok description.headers := by
  obtain ⟨hdos, hgap, hsignature, hheader, hoptional, hsections⟩ := stores_octets h
  have hannounced : description.fileHeader.optionalSize ≠ 0 := by
    simp only [fileHeader]
    split <;> decide
  -- The number of sections is held against the size of the whole file before any row is read.
  have hrows : (description.sections.flatMap SectionDescription.octets).length =
      description.sections.length * SectionHeader.byteSize := by
    simp [List.length_flatMap, List.map_const']
  have hfits : description.fileHeader.sectionCount.toNat ≤ file.size / SectionHeader.byteSize := by
    rw [sectionCount_eq, Nat.le_div_iff_mul_le (by decide), ← hrows]
    exact Nat.le_trans hsections.length_le (Nat.sub_le ..)
  have htable : SectionTable.readRows file description.fileHeader.longNames
      (0x98 + description.fileHeader.optionalSize.toNat) 1
      description.fileHeader.sectionCount.toNat = .ok description.sectionHeaders := by
    rw [sectionCount_eq, SectionTable.readRows_of_stores hsections]
    simp only [sectionHeaders, Nat.add_comm 1]
  exact (Headers.read_eq_ok ..).mpr ⟨0x80, description.fileHeader,
    DosHeader.imageHeaderPlace_of_stores hdos hsignature (by decide),
    RichHeader.check_of_stores hgap,
    (StoredFileHeader.read_eq_ok_iff_stores ..).mpr hheader,
    (Headers.readOptional_eq_ok ..).mpr ⟨hannounced,
      OptionalDescription.read_of_stores hoptional, description.directory?_reserved⟩,
    (SectionTable.read_eq_ok ..).mpr ⟨hfits, htable⟩, rfl⟩

/-- The length of the directory array is in range where the headers are stored. -/
theorem countInRange_of_stores (h : file.Stores 0 description.octets) :
    OptionalHeader.countInRange file = file := by
  obtain ⟨hdos, _, hsignature, _, hoptional, _⟩ := stores_octets h
  obtain ⟨_, hplace, _⟩ := (DosHeader.imageHeaderPlace_eq_ok ..).mp
    (DosHeader.imageHeaderPlace_of_stores hdos hsignature (by decide))
  have hmagic := OptionalDescription.magic_of_stores hoptional
  have hcount := (OptionalDescription.stores_octets hoptional).2.2.1
  apply OptionalHeader.countInRange_of_le
  have hcountPlace : OptionalHeader.countPlace file =
      0x98 + OptionalHeader.directoryCountOffset description.optional.base.isWide := by
    rw [OptionalHeader.countPlace, ← DosHeader.placeOffset, hplace,
      ← description.optional.base.magic_eq_magicWide, ← hmagic]
    rfl
  rw [hcountPlace, hcount]
  decide

/-- Loading a file that starts with written headers gives what they were written from. -/
theorem load_of_stores (h : file.Stores 0 description.octets) :
    Image.load (some file) = .ok ⟨file, description.fileHeader.toFileHeader,
      description.optional.header, ⟨description.sectionHeaders⟩⟩ := by
  refine (Image.load_eq_ok ..).mpr ⟨?_, description.headers, ?_, rfl⟩
  · have hsize := (stores_octets h).1.length_le
    rw [DosHeader.length_octets, DosHeader.byteSize] at hsize
    omega
  · rw [countInRange_of_stores h, read_of_stores h]

end ImageDescription

namespace Image

/-- Loading undoes writing. A file that starts with the headers written from a description is
loaded, whatever follows them. The image has the machine and the time stamp of the description, the
magic number of its kind of address, and its entry point, preferred address and characteristics. It
has the described sections in their order, numbered from one, and it declares a table exactly where
the entry at its place is not two zeros. -/
theorem load_octets (description : ImageDescription) (rest : List UInt8) :
    ∃ image, load (some (.ofOctets (description.octets ++ rest))) = .ok image ∧
      image.file.octets = description.octets ++ rest ∧
      image.fileHeader.machine = description.machine ∧
      image.fileHeader.timeDateStamp = description.timeDateStamp ∧
      image.fileHeader.sectionCount.toNat = description.sections.length ∧
      image.optional.magic = description.optional.base.magic ∧
      image.optional.entryPoint = description.optional.entryPoint ∧
      image.optional.imageBase = description.optional.base.address ∧
      image.optional.dllCharacteristics = description.optional.dllCharacteristics ∧
      image.sections.headers =
        description.sections.mapIdx (fun i declared => declared.header (i + 1)) ∧
      ∀ key range, image.optional.directory? key = some range ↔
        description.optional.directories.get key.index = range ∧ range ≠ ⟨0, 0⟩ := by
  have hstored : Bytes.Stores (.ofOctets (description.octets ++ rest)) 0 description.octets :=
    List.prefix_append description.octets rest
  refine ⟨_, ImageDescription.load_of_stores hstored, rfl, rfl, rfl, description.sectionCount_eq,
    rfl, rfl, rfl, rfl, rfl, fun key range => ?_⟩
  rw [OptionalDescription.directory?_header, DirectoryRange.declared?_eq_some]

/-- A wide image with two sections that declares its imports. -/
def twoSectionsDescription : ImageDescription where
  machine := 0x8664
  timeDateStamp := 0x5E000000
  optional := {
    entryPoint := 0x1000
    base := .wide 0x140000000
    sizeOfImage := 0x3000
    dllCharacteristics := 0x8160
    directories := (Vector.replicate 16 ⟨0, 0⟩).set 1 ⟨0x2000, 40⟩ }
  sections := [
    ⟨#v[0x2E, 0x74, 0x65, 0x78, 0x74, 0, 0, 0], 0x100, 0x1000, 0x200, 0x400, 0x60000020,
      by decide⟩,
    ⟨#v[0x2E, 0x64, 0x61, 0x74, 0x61, 0, 0x21, 0], 0x80, 0x2000, 0x200, 0x600, 0xC0000040,
      by decide⟩]
  countable := by decide
  reserved := by decide

/-- Sections that are written are loaded with the part of their names before the first NUL. -/
theorem load_octets_twoSections :
    ∃ image, load (some (.ofOctets (twoSectionsDescription.octets ++ [1, 2, 3]))) = .ok image ∧
      image.optional.magic = 0x20B ∧ image.optional.imageBase = 0x140000000 ∧
      image.sections.headers.map (fun header => (header.number, header.name)) =
        [(1, ".text"), (2, ".data")] ∧
      image.optional.directory? .importTable = some ⟨0x2000, 40⟩ := by
  obtain ⟨image, hload, _, _, _, _, hmagic, _, hbase, _, hsections, htables⟩ :=
    load_octets twoSectionsDescription [1, 2, 3]
  refine ⟨image, hload, hmagic, hbase, ?_, (htables ..).mpr ⟨rfl, by decide⟩⟩
  rw [hsections]
  decide +kernel

end Image

end PeImage
