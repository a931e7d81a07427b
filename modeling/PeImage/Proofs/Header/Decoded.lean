import Mathlib.Logic.Basic
import PeImage.Image.Load
import PeImage.Proofs.Header.DirectoryCount
import PeImage.Proofs.Result

/-!
# What decoded headers say

Every header is decoded exactly when its bytes lie in the file and its marks are right, and it then
says what is stored. The conditions are on the words of the file alone, so they carry over to every
file that agrees in those words.
-/

namespace PeImage

/-- Fields of one size take as much as all of them. -/
theorem totalSize_replicate (count size : Nat) :
    totalSize (List.replicate count size) = count * size := List.sum_replicate_nat

/-- The image header is found where the two signatures are, and not in front of the end of the DOS
header. -/
theorem DosHeader.imageHeaderPlace_eq_ok (file : Bytes) (place : UInt32) :
    imageHeaderPlace file = .ok place ↔
      file.u16 0 = signature ∧ file.u32 placeOffset = place ∧ place.toNat + 4 ≤ file.size ∧
        file.u32 place.toNat = imageSignature ∧ byteSize ≤ place.toNat := by
  unfold imageHeaderPlace
  dsimp only
  simp only [check_eq_ok, unit_bind_eq_ok, requireFields_eq_ok, totalSize_replicate, ne_eq,
    not_not, Nat.not_lt]
  rw [byteSize, placeOffset]
  constructor
  · rintro ⟨_, hsignature, _, _, hinside, himage, hplace, h⟩
    obtain rfl := Except.ok.inj h
    exact ⟨hsignature, rfl, hinside, himage, hplace⟩
  · rintro ⟨hsignature, rfl, hinside, himage, hplace⟩
    exact ⟨by omega, hsignature, Or.inr (by omega), by omega, hinside, himage, hplace, rfl⟩

/-- The file header is decoded where all of its bytes lie in the file. -/
theorem StoredFileHeader.read_eq_ok (file : Bytes) (offset : Nat) (header : StoredFileHeader) :
    read file offset = .ok header ↔
      offset + byteSize ≤ file.size ∧ readAt file offset = header := by
  unfold read
  rw [unit_bind_eq_ok, requireFields_eq_ok, or_iff_right (by decide)]
  exact and_congr_right fun _ => ⟨Except.ok.inj, congrArg Except.ok⟩

namespace OptionalHeader

/-- The fields before the directory array end with its length. -/
theorem totalSize_fieldSizes (isWide : Bool) :
    totalSize (fieldSizes isWide) = directoryCountOffset isWide + 4 := by
  cases isWide <;> rfl

/-- The optional header is decoded where it is of a known kind and the directory array ends in the
file. -/
theorem read_eq_ok (file : Bytes) (offset : Nat) (header : OptionalHeader) :
    read file offset = .ok header ↔
      (file.u16 offset = magic32 ∨ file.u16 offset = magicWide) ∧
        (let isWide : Bool := file.u16 offset = magicWide
        let place := offset + directoryCountOffset isWide
        place + 4 + 8 * (file.u32 place).toNat ≤ file.size ∧
          readAt file offset isWide = header) := by
  have hfieldSizes (isWide : Bool) : fieldSizes isWide ≠ [] := by cases isWide <;> decide
  unfold read
  dsimp only
  simp only [check_eq_ok, unit_bind_eq_ok, requireField_eq_ok, requireFields_eq_ok, hfieldSizes,
    false_or, totalSize_replicate, totalSize_fieldSizes, not_and_or, not_not]
  generalize decide (file.u16 offset = magicWide) = isWide
  constructor
  · rintro ⟨_, hmagic, hfields, harray, h⟩
    refine ⟨hmagic, ?_, Except.ok.inj h⟩
    rcases harray with hnone | hinside
    · rw [List.replicate_eq_nil_iff] at hnone
      omega
    · omega
  · rintro ⟨hmagic, hinside, rfl⟩
    exact ⟨by omega, hmagic, by omega, Or.inr (by omega), rfl⟩

/-- An entry of the directory array is not two zeros. -/
theorem inUse_of_rangeAt? {file : Bytes} {offset index : Nat}
    {range : DirectoryRange} (h : rangeAt? file offset index = some range) :
    ¬ (range.address = 0 ∧ range.size = 0) := by
  unfold rangeAt? at h
  dsimp only at h
  split at h
  · exact nomatch h
  · rename_i hused
    obtain rfl := Option.some.inj h
    exact hused

/-- A decoded header declares no table by two zeros. -/
theorem inUse_of_read {file : Bytes} {offset : Nat} {header : OptionalHeader}
    (h : read file offset = .ok header) (key : DirectoryKey) (range : DirectoryRange)
    (hrange : header.directories.get? key = some range) :
    ¬ (range.address = 0 ∧ range.size = 0) := by
  obtain ⟨_, _, rfl⟩ := (read_eq_ok ..).mp h
  have hslot := (Vector.getElem_ofFn key.index.isLt).symm.trans hrange
  exact inUse_of_rangeAt? (Option.ite_none_right_eq_some.mp hslot).2

end OptionalHeader

/-- A section header is decoded where its record lies in the file and its name is sound. -/
theorem SectionHeader.read_eq_ok (file : Bytes) (longNames offset number : Nat)
    (header : SectionHeader) :
    read file longNames offset number = .ok header ↔
      offset + byteSize ≤ file.size ∧
        ∃ longName?, SectionName.longName? file longNames (rawNameAt file offset).toList =
          .ok longName? ∧ readAt file offset number longName? = header := by
  unfold read
  rw [unit_bind_eq_ok, requireFields_eq_ok, or_iff_right (by decide), bind_eq_ok]
  refine and_congr_right fun _ => exists_congr fun _ => and_congr_right fun _ => ?_
  exact ⟨Except.ok.inj, congrArg Except.ok⟩

namespace SectionTable

/-- The rows of a table are decoded one behind the other, and numbered in turn. -/
theorem getElem?_of_readRows {file : Bytes} {longNames offset number count : Nat}
    {headers : List SectionHeader}
    (h : readRows file longNames offset number count = .ok headers) :
    headers.length = count ∧ ∀ i < count, ∃ header, headers[i]? = some header ∧
      SectionHeader.read file longNames (offset + SectionHeader.byteSize * i) (number + i) =
        .ok header := by
  induction count generalizing offset number headers with
  | zero =>
    obtain rfl := Except.ok.inj h
    exact ⟨rfl, fun i hi => absurd hi (Nat.not_lt_zero i)⟩
  | succ count ih =>
    obtain ⟨first, hfirst, h⟩ := bind_eq_ok.mp h
    obtain ⟨rest, hrest, h⟩ := bind_eq_ok.mp h
    obtain rfl := Except.ok.inj h
    obtain ⟨hlength, hrows⟩ := ih hrest
    refine ⟨congrArg Nat.succ hlength, fun i hi => ?_⟩
    cases i with
    | zero => exact ⟨first, rfl, hfirst⟩
    | succ i =>
      obtain ⟨header, hheader, hread⟩ := hrows i (Nat.lt_of_succ_lt_succ hi)
      refine ⟨header, hheader, ?_⟩
      rwa [Nat.mul_succ, Nat.add_comm _ SectionHeader.byteSize, ← Nat.add_assoc, ← Nat.add_assoc,
        Nat.add_right_comm number]

/-- A table is decoded where the file could hold it and all of its rows are. -/
theorem read_eq_ok (file : Bytes) (longNames offset : Nat) (count : UInt16)
    (table : SectionTable) :
    read file longNames offset count = .ok table ↔
      count.toNat ≤ file.size / SectionHeader.byteSize ∧
        readRows file longNames offset 1 count.toNat = .ok table.headers := by
  unfold read
  dsimp only
  rw [check_eq_ok, Nat.not_lt, bind_eq_ok]
  refine and_congr_right fun _ => ?_
  constructor
  · rintro ⟨headers, hrows, h⟩
    obtain rfl := Except.ok.inj h
    exact hrows
  · exact fun h => ⟨table.headers, h, rfl⟩

/-- The rows of a decoded table are as many as announced, and numbered in turn. -/
theorem numbers_of_read {file : Bytes} {longNames offset : Nat} {count : UInt16}
    {table : SectionTable} (h : read file longNames offset count = .ok table) :
    table.headers.length = count.toNat ∧
      ∀ i header, table.headers[i]? = some header → header.number = i + 1 := by
  obtain ⟨_, hrows⟩ := (read_eq_ok ..).mp h
  obtain ⟨hlength, hrow⟩ := getElem?_of_readRows hrows
  refine ⟨hlength, fun i header hheader => ?_⟩
  obtain ⟨hi, _⟩ := List.getElem?_eq_some_iff.mp hheader
  obtain ⟨row, hrow, hread⟩ := hrow i (hlength ▸ hi)
  obtain rfl := Option.some.inj (hheader.symm.trans hrow)
  obtain ⟨_, longName?, _, rfl⟩ := (SectionHeader.read_eq_ok ..).mp hread
  exact Nat.add_comm 1 i

end SectionTable

/-- A header that is decoded stays so when its faults are lifted. -/
theorem ofHeader_eq_ok {α : Type} {result : Except HeaderFault α} {value : α} :
    ofHeader result = .ok value ↔ result = .ok value := by
  cases result with
  | error fault => exact iff_of_false (fun h => nomatch h) fun h => nomatch h
  | ok other =>
    change Except.ok other = Except.ok value ↔ _
    rw [Except.ok.injEq, Except.ok.injEq]

namespace Headers

/-- The optional header is there where it is announced and decoded, and leaves its last directory
alone. -/
theorem readOptional_eq_ok (file : Bytes) (place : Nat) (header : StoredFileHeader)
    (optional : OptionalHeader) :
    readOptional file place header = .ok optional ↔
      header.optionalSize ≠ 0 ∧ OptionalHeader.read file (place + 24) = .ok optional ∧
        optional.directory? .reserved = none := by
  unfold readOptional
  dsimp only
  rw [check_eq_ok, bind_eq_ok]
  simp only [ofHeader_eq_ok, check_eq_ok, Option.not_isSome_iff_eq_none]
  refine and_congr_right fun _ => ?_
  constructor
  · rintro ⟨_, hread, hreserved, h⟩
    obtain rfl := Except.ok.inj h
    exact ⟨hread, hreserved⟩
  · rintro ⟨hread, hreserved⟩
    exact ⟨optional, hread, hreserved, rfl⟩

/-- The headers of a file are decoded where each of them is. -/
theorem read_eq_ok (file : Bytes) (headers : Headers) :
    read file = .ok headers ↔
      ∃ place header, DosHeader.imageHeaderPlace file = .ok place ∧
        RichHeader.check file place.toNat = .ok () ∧
        StoredFileHeader.read file (place.toNat + 4) = .ok header ∧
        readOptional file place.toNat header = .ok headers.optional ∧
        SectionTable.read file header.longNames (place.toNat + 24 + header.optionalSize.toNat)
          header.sectionCount = .ok headers.sections ∧
        header.toFileHeader = headers.fileHeader := by
  unfold read
  simp only [bind_eq_ok, ofHeader_eq_ok, readSections]
  constructor
  · rintro ⟨place, hplace, _, hrich, header, hheader, optional, hoptional, sections, hsections, h⟩
    obtain rfl := Except.ok.inj h
    exact ⟨place, header, hplace, hrich, hheader, hoptional, hsections, rfl⟩
  · rintro ⟨place, header, hplace, hrich, hheader, hoptional, hsections, hfile⟩
    refine ⟨place, hplace, (), hrich, header, hheader, _, hoptional, _, hsections, ?_⟩
    rw [hfile]
    rfl

end Headers

section CountInRange

variable (file : Bytes)

/-- Setting the length of the directory array right moves no image header. -/
theorem DosHeader.imageHeaderPlace_countInRange (place : UInt32) :
    imageHeaderPlace (OptionalHeader.countInRange file) = .ok place ↔
      imageHeaderPlace file = .ok place := by
  have hagree := OptionalHeader.agreeOutside_countInRange file
  have hcount := OptionalHeader.lt_countPlace file
  have hpointer : (OptionalHeader.countInRange file).u32 0x3C = file.u32 0x3C :=
    hagree.u32 (by omega)
  rw [imageHeaderPlace_eq_ok, imageHeaderPlace_eq_ok, hagree.u16 (by omega), placeOffset, hpointer,
    hagree.size]
  refine and_congr_right fun _ => and_congr_right fun hplace => and_congr_right fun _ => ?_
  subst hplace
  rw [hagree.u32 (by omega)]

/-- Setting the length right changes nothing in front of the image header. -/
theorem RichHeader.check_countInRange :
    check (OptionalHeader.countInRange file) (file.u32 0x3C).toNat =
      check file (file.u32 0x3C).toNat := by
  have hagree := OptionalHeader.agreeOutside_countInRange file
  have hcount := OptionalHeader.lt_countPlace file
  unfold check
  split
  · rfl
  · rw [hagree.clip (by omega)]

/-- Setting the length right changes nothing in the file header. -/
theorem StoredFileHeader.read_countInRange (header : StoredFileHeader) :
    read (OptionalHeader.countInRange file) ((file.u32 0x3C).toNat + 4) = .ok header ↔
      read file ((file.u32 0x3C).toNat + 4) = .ok header := by
  have hagree := OptionalHeader.agreeOutside_countInRange file
  have hcount := OptionalHeader.lt_countPlace file
  rw [read_eq_ok, read_eq_ok, hagree.size, readAt, readAt, hagree.u16 (by omega),
    hagree.u16 (by omega), hagree.u16 (by omega), hagree.u16 (by omega), hagree.u32 (by omega),
    hagree.u32 (by omega), hagree.u32 (by omega)]

end CountInRange

/-- The contents of a file are opened if there are any. -/
theorem openContents_some (file : Bytes) :
    openContents (some file) = if file.size = 0 then .error .empty else .ok file := rfl

/-- Loading the contents of a file decodes them if there are any. -/
theorem Image.load_some (file : Bytes) :
    load (some file) = if file.size = 0 then .error .empty else ofFile file := by
  rw [load, openContents_some]
  split <;> rfl

/-- An image is loaded from a file that has bytes and whose headers are decoded, with the length of
the directory array in range. -/
theorem Image.load_eq_ok (file : Bytes) (image : Image) :
    load (some file) = .ok image ↔
      file.size ≠ 0 ∧ ∃ headers,
        Headers.read (OptionalHeader.countInRange file) = .ok headers ∧
        ⟨file, headers.fileHeader, headers.optional, headers.sections⟩ = image := by
  rw [load_some]
  split
  · rename_i hempty
    exact iff_of_false (fun h => nomatch h) fun h => h.1 hempty
  · rename_i hbytes
    rw [and_iff_right hbytes, ofFile, bind_eq_ok]
    exact exists_congr fun headers => and_congr_right fun _ => ⟨Except.ok.inj, congrArg Except.ok⟩

end PeImage
