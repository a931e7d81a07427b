import Mathlib.Tactic.MkIffOfInductiveProp
import PeImage.Proofs.Header.DirectoryRows
import PeImage.Proofs.Image.Written

/-!
# Declared directories of a loaded image

A loaded image declares a table exactly where its file does: the place of the table is one of those
that the file counts, up to sixteen, and the address and size that stand there are not two zeros.
Half of a pair may be zero. The headers are decoded from the copy that has the count in range, which
has every entry of the array as the file has it, because the array starts right behind the count.

The last of the sixteen places is no exception. A file that declares a table there is not loaded.
-/

namespace PeImage

/-- Parts that do not touch the range of a replacement are stored in both. -/
theorem Bytes.AgreeOutside.stores {start stop : Nat} {a b : Bytes} (h : AgreeOutside start stop a b)
    {offset : Nat} {octets : List UInt8}
    (hclear : offset + octets.length ≤ start ∨ stop ≤ offset) :
    a.Stores offset octets ↔ b.Stores offset octets := by
  rw [stores_iff_octetsAt, stores_iff_octetsAt, h.octetsAt hclear]

namespace OptionalHeader

/-- A directory array declares a table where its place is counted and its entry is in use. -/
theorem get?_directoriesAt (file : Bytes) (offset count : Nat) (key : DirectoryKey) :
    (directoriesAt file offset count).get? key =
      if key.index < count then rangeAt? file offset key.index else none :=
  Vector.getElem_ofFn key.index.isLt

/-- An entry that lies in the file declares the table whose address and size stand there, unless
both are zero. -/
theorem rangeAt?_eq_some {file : Bytes} {offset index : Nat}
    (hinside : offset + 8 * (index + 1) ≤ file.size) (range : DirectoryRange) :
    rangeAt? file offset index = some range ↔
      file.Stores (offset + 8 * index) range.octets ∧ range ≠ ⟨0, 0⟩ := by
  have hentry : file.Stores (offset + 8 * index) range.octets ↔
      (⟨file.u32 (offset + 8 * index), file.u32 (offset + 8 * index + 4)⟩ : DirectoryRange) =
        range := by
    obtain ⟨address, size⟩ := range
    rw [DirectoryRange.octets, Bytes.stores_append, LittleEndian.length_word32,
      Bytes.stores_word32, Bytes.stores_word32, DirectoryRange.mk.injEq]
    exact and_congr (and_iff_right (by omega)) (and_iff_right (by omega))
  rw [hentry, ← DirectoryRange.declared?_eq_some]
  rfl

/-- The number of entries in front of the directory array of a decoded header lies in the file. -/
theorem directoryCount_inside_of_read {file : Bytes} {offset : Nat} {header : OptionalHeader}
    (h : read file offset = .ok header) :
    offset + directoryCountOffset header.isWide + 4 ≤ file.size := by
  obtain ⟨_, hinside, rfl⟩ := (read_eq_ok ..).mp h
  exact Nat.le_trans (Nat.le_add_right _ _) hinside

/-- A decoded header declares the tables whose places are counted by the number in front of the
directory array and whose entries are in use. -/
theorem directory?_of_read {file : Bytes} {offset : Nat} {header : OptionalHeader}
    (h : read file offset = .ok header) (key : DirectoryKey) (range : DirectoryRange) :
    header.directory? key = some range ↔
      let place := offset + directoryCountOffset header.isWide
      key.index < (file.u32 place).toNat ∧
        file.Stores (place + 4 + 8 * key.index) range.octets ∧ range ≠ ⟨0, 0⟩ := by
  obtain ⟨_, hinside, rfl⟩ := (read_eq_ok ..).mp h
  rw [directory?, readAt, get?_directoriesAt, Option.ite_none_right_eq_some]
  refine and_congr_right fun hcounted => rangeAt?_eq_some ?_ range
  exact Nat.le_trans (Nat.add_le_add_left (Nat.mul_le_mul_left 8 hcounted) _) hinside

end OptionalHeader

namespace Image

open OptionalHeader

/-- The offset of the directory array, as the file has it: behind the other fields of the optional
header, of which a wide image has sixteen bytes more. -/
def directoryArrayOffset (file : Bytes) : Nat :=
  let offset := (file.u32 0x3C).toNat + 24
  offset + if file.u16 offset = magicWide then 112 else 96

/-- The file declares a table at a place of its directory array. The number of entries stands in
front of the array. -/
@[mk_iff]
structure DeclaredAt (file : Bytes) (index : Nat) (range : DirectoryRange) : Prop where
  counted : index < min (file.u32 (directoryArrayOffset file - 4)).toNat directoryLimit
  stored : file.Stores (directoryArrayOffset file + 8 * index) range.octets
  inUse : range ≠ ⟨0, 0⟩

/-- The directory array starts behind the number of its entries. -/
theorem directoryArrayOffset_eq (file : Bytes) :
    directoryArrayOffset file = countPlace file + 4 := by
  rw [directoryArrayOffset, countPlace, directoryCountOffset]
  generalize (file.u32 0x3C).toNat + 24 = offset
  by_cases hwide : file.u16 offset = magicWide <;> simp [hwide, Nat.add_assoc]

/-- The optional header of a loaded image is decoded from the copy that has the number of entries
in range, and the kind of the image is that of the file. -/
theorem optional_of_load {file : Bytes} {image : Image} (h : load (some file) = .ok image) :
    OptionalHeader.read (countInRange file) ((file.u32 0x3C).toNat + 24) = .ok image.optional ∧
      image.optional.isWide = decide (file.u16 ((file.u32 0x3C).toNat + 24) = magicWide) := by
  obtain ⟨_, headers, hheaders, rfl⟩ := (load_eq_ok ..).mp h
  obtain ⟨place, header, hplace, _, _, hoptional, _⟩ := (Headers.read_eq_ok ..).mp hheaders
  rw [DosHeader.imageHeaderPlace_countInRange, DosHeader.imageHeaderPlace_eq_ok] at hplace
  obtain ⟨_, hpointer, _⟩ := hplace
  obtain rfl : file.u32 0x3C = place := hpointer
  obtain ⟨_, hread, _⟩ := (Headers.readOptional_eq_ok ..).mp hoptional
  refine ⟨hread, ?_⟩
  obtain ⟨_, _, hheader⟩ := (OptionalHeader.read_eq_ok ..).mp hread
  have hcount := lt_countPlace file
  have hmagic : headers.optional.magic = file.u16 ((file.u32 0x3C).toNat + 24) := by
    rw [← hheader, readAt]
    exact (agreeOutside_countInRange file).u16 (by omega)
  rw [isWide, hmagic]

/-- A loaded image declares the tables that its file declares. -/
theorem directory?_of_load {file : Bytes} {image : Image} (h : load (some file) = .ok image)
    (key : DirectoryKey) (range : DirectoryRange) :
    image.optional.directory? key = some range ↔ DeclaredAt file key.index range := by
  obtain ⟨hread, hkind⟩ := optional_of_load h
  have hagree := agreeOutside_countInRange file
  have hplace : (file.u32 0x3C).toNat + 24 + directoryCountOffset image.optional.isWide =
      countPlace file := by
    rw [hkind]
    rfl
  have hcount : countPlace file + 4 ≤ file.size := by
    rw [← hagree.size, ← hplace]
    exact directoryCount_inside_of_read hread
  have hentry : (countInRange file).Stores (countPlace file + 4 + 8 * key.index) range.octets ↔
      file.Stores (countPlace file + 4 + 8 * key.index) range.octets :=
    hagree.stores (Or.inr (Nat.le_add_right _ _))
  rw [directory?_of_read hread, declaredAt_iff, directoryArrayOffset_eq, Nat.add_sub_cancel]
  dsimp only
  rw [hplace, u32_countInRange hcount, hentry]

/-- At every place of the directory array a loaded image declares what its file does, and its list
of directories holds each declared table once, in the order of the places. -/
theorem directories_of_load {file : Bytes} {image : Image} (h : load (some file) = .ok image) :
    (∀ i < directoryLimit, ∃ key, DirectoryKey.ofIndex? i = some key ∧
      ∀ range, image.optional.directory? key = some range ↔ DeclaredAt file i range) ∧
    (∀ key range, (key, range) ∈ image.optional.directories.toList ↔
      DeclaredAt file key.index range) ∧
    image.optional.directories.toList.Pairwise fun a b => a.1.index < b.1.index := by
  refine ⟨fun i hi => ?_, fun key range => ?_, DirectoryMap.toList_pairwise _⟩
  · obtain ⟨key, rfl⟩ := DirectoryKey.exists_index hi
    exact ⟨key, DirectoryKey.ofIndex?_index key, directory?_of_load h key⟩
  · rw [DirectoryMap.mem_toList]
    exact directory?_of_load h key range

/-- A narrow image that declares seventeen tables, of which two are in use: the first by a size
alone, and the third by an address alone. -/
def halfPairsFile : Bytes :=
  headersOnly 0xE0 17 (DirectoryRange.octets ⟨0, 8⟩ ++ DirectoryRange.octets ⟨0, 0⟩ ++
    DirectoryRange.octets ⟨0x3000, 0⟩ ++ List.replicate 144 0)

theorem load_halfPairsFile : ∃ image, load (some halfPairsFile) = .ok image ∧
    image.sections.headers.map (·.virtualSize) = [0] :=
  load_headersOnly (by decide) (by decide +kernel)

/-- Both halves of pairs are declared, and listed in their order. -/
theorem directories_of_load_halfPairs :
    ∃ image, load (some halfPairsFile) = .ok image ∧
      image.optional.directory? .exportTable = some ⟨0, 8⟩ ∧
      (.resourceTable, ⟨0x3000, 0⟩) ∈ image.optional.directories.toList ∧
      image.optional.directories.toList.Pairwise fun a b => a.1.index < b.1.index := by
  have hsize : DeclaredAt halfPairsFile 0 ⟨0, 8⟩ := (declaredAt_iff ..).mpr (by decide +kernel)
  have haddress : DeclaredAt halfPairsFile 2 ⟨0x3000, 0⟩ :=
    (declaredAt_iff ..).mpr (by decide +kernel)
  obtain ⟨image, hload, _⟩ := load_halfPairsFile
  obtain ⟨hlookup, hlist, horder⟩ := directories_of_load hload
  obtain ⟨key, hkey, hrange⟩ := hlookup 0 (by decide)
  obtain rfl : DirectoryKey.exportTable = key := Option.some.inj hkey
  exact ⟨image, hload, (hrange _).mpr hsize, (hlist _ _).mpr haddress, horder⟩

end Image

end PeImage
