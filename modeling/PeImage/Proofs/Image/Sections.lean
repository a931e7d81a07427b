import PeImage.Proofs.Header.Decoded

/-!
# Section headers of a loaded image

The section table of a loaded image has a row for each section that the file header counts. The rows
are decoded from the copy of the file in which the length of the directory array is in range, so a
row says what the file itself has at its place, unless the length was out of range and its four
bytes are among those of the row. A table that starts in front of the end of the optional header
can have such a row.
-/

namespace PeImage

namespace SectionHeader

/-- The fields of a section header stand at an offset. -/
structure StoredAt (header : SectionHeader) (file : Bytes) (offset : Nat) : Prop where
  rawName : file.Stores offset header.rawName.toList
  virtualSize : file.Stores (offset + 8) (LittleEndian.word32 header.virtualSize)
  virtualAddress : file.Stores (offset + 12) (LittleEndian.word32 header.virtualAddress)
  rawSize : file.Stores (offset + 16) (LittleEndian.word32 header.rawSize)
  rawPointer : file.Stores (offset + 20) (LittleEndian.word32 header.rawPointer)
  flags : file.Stores (offset + 36) (LittleEndian.word32 header.flags.bits)

/-- The fields before those that are not kept, as they are stored. -/
def frontOctets (header : SectionHeader) : List UInt8 :=
  header.rawName.toList ++ LittleEndian.word32 header.virtualSize ++
    LittleEndian.word32 header.virtualAddress ++ LittleEndian.word32 header.rawSize ++
    LittleEndian.word32 header.rawPointer

/-- Two files have the same bytes at the fields of the record at an offset. -/
def SameFields (a b : Bytes) (offset : Nat) : Prop :=
  a.octetsAt offset 24 = b.octetsAt offset 24 ∧
    a.octetsAt (offset + 36) 4 = b.octetsAt (offset + 36) 4

theorem length_frontOctets (header : SectionHeader) : header.frontOctets.length = 24 := by
  simp [frontOctets]

/-- The fields of a record stand in two runs. -/
theorem storedAt_iff (header : SectionHeader) (file : Bytes) (offset : Nat) :
    header.StoredAt file offset ↔ file.Stores offset header.frontOctets ∧
      file.Stores (offset + 36) (LittleEndian.word32 header.flags.bits) := by
  simp only [frontOctets, Bytes.stores_append, List.length_append, Vector.length_toList,
    LittleEndian.length_word32]
  constructor
  · rintro ⟨hname, hvirtualSize, hvirtualAddress, hrawSize, hrawPointer, hflags⟩
    exact ⟨⟨⟨⟨⟨hname, hvirtualSize⟩, hvirtualAddress⟩, hrawSize⟩, hrawPointer⟩, hflags⟩
  · rintro ⟨⟨⟨⟨⟨hname, hvirtualSize⟩, hvirtualAddress⟩, hrawSize⟩, hrawPointer⟩, hflags⟩
    exact ⟨hname, hvirtualSize, hvirtualAddress, hrawSize, hrawPointer, hflags⟩

/-- A header that is stored in one file is stored in another exactly where the two have the same
fields. -/
theorem StoredAt.iff_sameFields {header : SectionHeader} {a b : Bytes} {offset : Nat}
    (h : header.StoredAt a offset) : header.StoredAt b offset ↔ SameFields a b offset := by
  rw [storedAt_iff, Bytes.stores_iff_octetsAt, Bytes.stores_iff_octetsAt, length_frontOctets,
    LittleEndian.length_word32] at h
  rw [storedAt_iff, Bytes.stores_iff_octetsAt, Bytes.stores_iff_octetsAt, length_frontOctets,
    LittleEndian.length_word32, SameFields, h.1, h.2, eq_comm,
    @eq_comm _ (b.octetsAt (offset + 36) 4)]

/-- The raw name that is read is stored. -/
theorem stores_rawNameAt {file : Bytes} {offset : Nat} (h : offset + 8 ≤ file.size) :
    file.Stores offset (rawNameAt file offset).toList := by
  rw [Bytes.stores_iff_octetsAt, Vector.length_toList, Bytes.octetsAt_eq]
  refine List.ext_getElem ?_ fun i hi _ => ?_
  · rw [List.length_take, List.length_drop, Bytes.length_octets, Vector.length_toList]
    omega
  · rw [List.length_take, List.length_drop, Bytes.length_octets] at hi
    have hinside : offset + i < file.octets.length := by
      rw [Bytes.length_octets]
      omega
    simp only [rawNameAt, List.getElem_take, List.getElem_drop, Vector.getElem_toList,
      Vector.getElem_ofFn, Bytes.u8_eq_getElem file (offset + i) hinside]

/-- A header that is decoded is stored. -/
theorem storedAt_of_read {file : Bytes} {longNames offset number : Nat} {header : SectionHeader}
    (h : read file longNames offset number = .ok header) :
    header.number = number ∧ header.StoredAt file offset := by
  obtain ⟨hinside, longName?, _, rfl⟩ := (read_eq_ok ..).mp h
  rw [byteSize] at hinside
  refine ⟨rfl, stores_rawNameAt (by omega), ?_, ?_, ?_, ?_, ?_⟩
  · exact (Bytes.stores_word32 ..).mpr ⟨by omega, rfl⟩
  · exact (Bytes.stores_word32 ..).mpr ⟨by omega, rfl⟩
  · exact (Bytes.stores_word32 ..).mpr ⟨by omega, rfl⟩
  · exact (Bytes.stores_word32 ..).mpr ⟨by omega, rfl⟩
  · exact (Bytes.stores_word32 ..).mpr ⟨by omega, rfl⟩

end SectionHeader

namespace Image

open OptionalHeader

/-- The offset of the section table, as the file has it. -/
def sectionTableOffset (file : Bytes) : Nat :=
  let place := (file.u32 0x3C).toNat
  place + 24 + (file.u16 (place + 20)).toNat

/-- Setting the length of the directory array right changes no field of the record at an offset:
there is nothing to set right, or none of its four bytes is one of a field. -/
def ClearOfCount (file : Bytes) (offset : Nat) : Prop :=
  (file.u32 (countPlace file)).toNat ≤ directoryLimit ∨
    offset + 40 ≤ countPlace file ∨ countPlace file + 4 ≤ offset ∨
    offset + 24 ≤ countPlace file ∧ countPlace file + 4 ≤ offset + 36

/-- A record that is clear of the length is the same in the copy. -/
theorem sameFields_countInRange {file : Bytes} {offset : Nat} (h : ClearOfCount file offset) :
    SectionHeader.SameFields (countInRange file) file offset := by
  have hagree := agreeOutside_countInRange file
  rcases h with hcount | hclear
  · rw [countInRange_of_le hcount]
    exact ⟨rfl, rfl⟩
  · exact ⟨hagree.octetsAt (by omega), hagree.octetsAt (by omega)⟩

/-- The rows of a loaded image are read from the copy, as many as the file header says. -/
theorem sections_of_load {file : Bytes} {image : Image} (h : load (some file) = .ok image) :
    image.sections.size = (file.u16 ((file.u32 0x3C).toNat + 6)).toNat ∧
      ∀ i < image.sections.size, ∃ header, image.sections.headers[i]? = some header ∧
        header.number = i + 1 ∧
        header.StoredAt (countInRange file) (sectionTableOffset file + 40 * i) := by
  obtain ⟨_, headers, hheaders, rfl⟩ := (load_eq_ok ..).mp h
  obtain ⟨place, header, hplace, _, hheader, _, hsections, _⟩ := (Headers.read_eq_ok ..).mp hheaders
  rw [DosHeader.imageHeaderPlace_countInRange, DosHeader.imageHeaderPlace_eq_ok] at hplace
  obtain ⟨_, rfl, _⟩ := hplace
  obtain ⟨_, rfl⟩ :=
    (StoredFileHeader.read_eq_ok ..).mp ((StoredFileHeader.read_countInRange ..).mp hheader)
  obtain ⟨_, hrows⟩ := (SectionTable.read_eq_ok ..).mp hsections
  obtain ⟨hlength, hrow⟩ := SectionTable.getElem?_of_readRows hrows
  refine ⟨hlength, fun i hi => ?_⟩
  obtain ⟨header, hheader, hread⟩ := hrow i (hlength ▸ hi)
  obtain ⟨hnumber, hstored⟩ := SectionHeader.storedAt_of_read hread
  exact ⟨header, hheader, hnumber.trans (Nat.add_comm 1 i), hstored⟩

/-- The section table of a loaded image has as many rows as the file header says, numbered from one
and found by their numbers. The fields of a row stand in the copy of the file that has the length of
the directory array in range. They stand in the file itself exactly where the record has the same
fields in both, as it does whenever it is clear of that length. -/
theorem load_sections_stored {file : Bytes} {image : Image} (h : load (some file) = .ok image) :
    image.file = file ∧
    image.sections.size = (file.u16 ((file.u32 0x3C).toNat + 6)).toNat ∧
    (∀ i < image.sections.size, ∃ header, image.sections.headers[i]? = some header ∧
      header.number = i + 1 ∧
      header.StoredAt (countInRange file) (sectionTableOffset file + 40 * i) ∧
      (header.StoredAt file (sectionTableOffset file + 40 * i) ↔
        SectionHeader.SameFields (countInRange file) file (sectionTableOffset file + 40 * i)) ∧
      (ClearOfCount file (sectionTableOffset file + 40 * i) →
        header.StoredAt file (sectionTableOffset file + 40 * i))) ∧
    ∀ header ∈ image.sections.headers, image.sections.byNumber header.number = .ok header := by
  obtain ⟨hsize, hrows⟩ := sections_of_load h
  refine ⟨?_, hsize, fun i hi => ?_, fun header hmem => ?_⟩
  · obtain ⟨_, headers, _, rfl⟩ := (load_eq_ok ..).mp h
    rfl
  · obtain ⟨header, hheader, hnumber, hstored⟩ := hrows i hi
    exact ⟨header, hheader, hnumber, hstored, hstored.iff_sameFields,
      fun hclear => hstored.iff_sameFields.mpr (sameFields_countInRange hclear)⟩
  · obtain ⟨i, hi, hheader⟩ := List.getElem_of_mem hmem
    obtain ⟨row, hrow, hnumber, _⟩ := hrows i hi
    obtain rfl : header = row := by
      rw [List.getElem?_eq_getElem hi, hheader] at hrow
      exact Option.some.inj hrow
    rw [hnumber, SectionTable.byNumber, hrow]

theorem sectionTableOffset_headersOnly (optionalSize count : UInt8) (rest : List UInt8) :
    sectionTableOffset (headersOnly optionalSize count rest) = 88 + optionalSize.toNat := by
  have hlt := optionalSize.toNat_lt
  have hvalue : LittleEndian.toNat [optionalSize, 0] = optionalSize.toNat := by
    simp [LittleEndian.toNat]
  have hsize : ((headersOnly optionalSize count rest).u16 84).toNat = optionalSize.toNat := by
    rw [Bytes.u16, Bytes.natAt_eq]
    change (UInt16.ofNat (LittleEndian.toNat [optionalSize, 0])).toNat = optionalSize.toNat
    rw [hvalue]
    exact UInt16.toNat_ofNat_of_lt' (by rw [UInt16.size]; omega)
  rw [sectionTableOffset, imageHeader_headersOnly]
  change 88 + ((headersOnly optionalSize count rest).u16 84).toNat = 88 + optionalSize.toNat
  rw [hsize]

/-- Headers with a length out of range are loaded with the sections that they have with sixteen
directories. -/
theorem load_headersOnly {optionalSize count : UInt8} {rest : List UInt8} {sizes : List UInt32}
    (hcount : 16 < count.toNat)
    (h : (Headers.read (headersOnly optionalSize 16 rest)).toOption.map
      (fun headers => headers.sections.headers.map (·.virtualSize)) = some sizes) :
    ∃ image, load (some (headersOnly optionalSize count rest)) = .ok image ∧
      image.sections.headers.map (·.virtualSize) = sizes := by
  cases hread : Headers.read (headersOnly optionalSize 16 rest) with
  | error fault =>
    rw [hread] at h
    exact nomatch h
  | ok headers =>
    rw [hread] at h
    refine ⟨_, (load_eq_ok ..).mpr ⟨?_, headers, ?_, rfl⟩, Option.some.inj h⟩
    · rw [size_headersOnly]
      omega
    · rwa [countInRange_headersOnly optionalSize rest hcount]

/-- A file with a length of seventeen and one section header behind all sixteen directories. -/
def clearFile : Bytes :=
  headersOnly 0xE0 17 (List.replicate 136 0 ++ [17] ++ List.replicate 31 0)

/-- A file with a length of seventeen, which is the size of its only section as well: the section
table starts inside the optional header. -/
def overlappingFile : Bytes := headersOnly 84 17 (List.replicate 128 0)

theorem load_clearFile : ∃ image, load (some clearFile) = .ok image ∧
    image.sections.headers.map (·.virtualSize) = [17] :=
  load_headersOnly (by decide) (by decide +kernel)

theorem load_overlappingFile : ∃ image, load (some overlappingFile) = .ok image ∧
    image.sections.headers.map (·.virtualSize) = [16] :=
  load_headersOnly (by decide) (by decide +kernel)

/-- The row of a section behind the directory array is the one that is stored. -/
theorem load_sections_stored_clearFile :
    ∃ image header, load (some clearFile) = .ok image ∧ image.sections.headers = [header] ∧
      ClearOfCount clearFile (sectionTableOffset clearFile) ∧ header.number = 1 ∧
      header.StoredAt clearFile (sectionTableOffset clearFile) := by
  obtain ⟨image, hload, hsizes⟩ := load_clearFile
  obtain ⟨header, hheaders, -⟩ := List.map_eq_singleton_iff.mp hsizes
  obtain ⟨_, _, hrows, _⟩ := load_sections_stored hload
  have hsize : 0 < image.sections.size := by
    rw [SectionTable.size, hheaders]
    exact Nat.one_pos
  obtain ⟨row, hrow, hnumber, _, _, hstored⟩ := hrows 0 hsize
  obtain rfl : header = row := by
    rw [hheaders] at hrow
    exact Option.some.inj hrow
  rw [Nat.mul_zero, Nat.add_zero] at hstored
  have hclear : ClearOfCount clearFile (sectionTableOffset clearFile) := by
    rw [ClearOfCount, clearFile, sectionTableOffset_headersOnly, countPlace_headersOnly]
    exact Or.inr (Or.inr (Or.inl (by simp)))
  exact ⟨image, header, hload, hheaders, hclear, hnumber, hstored hclear⟩

/-- The row of a section over the length of the directory array is not the one that is stored: it
has the size sixteen, and seventeen is stored. -/
theorem overlappingFile_not_stored :
    ∃ image header, load (some overlappingFile) = .ok image ∧ image.sections.headers = [header] ∧
      header.virtualSize = 16 ∧
      overlappingFile.Stores (sectionTableOffset overlappingFile + 8) (LittleEndian.word32 17) ∧
      ¬ header.StoredAt overlappingFile (sectionTableOffset overlappingFile) := by
  obtain ⟨image, hload, hsizes⟩ := load_overlappingFile
  obtain ⟨header, hheaders, hsize⟩ := List.map_eq_singleton_iff.mp hsizes
  have hoffset : sectionTableOffset overlappingFile + 8 = 180 :=
    congrArg (· + 8) (sectionTableOffset_headersOnly 84 17 _)
  have hstored : overlappingFile.u32 180 = 17 :=
    UInt32.toNat_inj.mp (u32_headersOnly 84 17 _)
  refine ⟨image, header, hload, hheaders, hsize, ?_, fun h => ?_⟩
  · rw [hoffset]
    refine (Bytes.stores_word32 ..).mpr ⟨?_, hstored⟩
    rw [overlappingFile, size_headersOnly]
    exact Nat.le_add_right 184 _
  · have hrow := ((Bytes.stores_word32 ..).mp h.virtualSize).2
    rw [hoffset, hstored, hsize] at hrow
    exact absurd hrow (by decide)

end Image

end PeImage
