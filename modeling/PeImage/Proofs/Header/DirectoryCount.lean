import PeImage.Header.OptionalLayout
import PeImage.Proofs.Bytes.Agree

/-!
# The length of the directory array

Headers are decoded from a copy of the file in which a length of the directory array beyond sixteen
is replaced by sixteen. Its place is found by two fields in front of it, the place of the image
header and the magic number, so no replacement ever touches what it was found by. The copy has the
bytes of the file everywhere but in the four bytes of the length.
-/

namespace PeImage.OptionalHeader

/-- The offset of the length of the directory array, as the fields in front of it have it. -/
def countPlace (file : Bytes) : Nat :=
  let offset := (file.u32 0x3C).toNat + 24
  offset + directoryCountOffset (file.u16 offset = magicWide)

/-- The file with a length of the directory array that is in range. -/
def countInRange (file : Bytes) : Bytes := (clampDirectoryCount? file).getD file

/-- The length stands behind the fields that it is found by. -/
theorem lt_countPlace (file : Bytes) : (file.u32 0x3C).toNat + 116 ≤ countPlace file := by
  unfold countPlace directoryCountOffset
  dsimp only
  split <;> omega

/-- The place of the length is found where the fields in front of it lie in the file. -/
theorem directoryCountPlace?_eq (file : Bytes) :
    directoryCountPlace? file =
      if 0x40 ≤ file.size ∧ (file.u32 0x3C).toNat + 26 ≤ file.size then some (countPlace file)
      else none := by
  unfold directoryCountPlace? Bytes.u32? Bytes.u16?
  by_cases hpointer : 0x3C + 4 ≤ file.size
  · rw [if_pos hpointer, Option.bind_eq_bind, Option.bind_some]
    dsimp only
    by_cases hmagic : (file.u32 0x3C).toNat + 24 + 2 ≤ file.size
    · rw [if_pos hmagic, if_pos ⟨hpointer, hmagic⟩]
      rfl
    · rw [if_neg hmagic, if_neg fun h => hmagic h.2]
      rfl
  · rw [if_neg hpointer, if_neg fun h => hpointer h.1]
    rfl

/-- The length is replaced exactly when it lies in the file and is out of range. -/
theorem clampDirectoryCount?_eq (file : Bytes) :
    clampDirectoryCount? file =
      if countPlace file + 4 ≤ file.size ∧ directoryLimit < (file.u32 (countPlace file)).toNat then
        some (file.overwrite (countPlace file) (LittleEndian.ofNat 4 directoryLimit))
      else none := by
  have hplace := lt_countPlace file
  rw [clampDirectoryCount?, directoryCountPlace?_eq]
  by_cases hinside : countPlace file + 4 ≤ file.size
  · have hfields : 0x40 ≤ file.size ∧ (file.u32 0x3C).toNat + 26 ≤ file.size := by omega
    simp only [if_pos hfields, Option.bind_eq_bind, Option.bind_some, Bytes.u32?, if_pos hinside]
    simp only [hinside, true_and]
  · have hcut : ¬ (countPlace file + 4 ≤ file.size ∧
        directoryLimit < (file.u32 (countPlace file)).toNat) := fun h => hinside h.1
    rw [if_neg hcut]
    split
    · rw [Option.bind_eq_bind, Option.bind_some, Bytes.u32?, if_neg hinside]
      rfl
    · rfl

/-- A length in range is left as it is. -/
theorem countInRange_of_le {file : Bytes}
    (h : (file.u32 (countPlace file)).toNat ≤ directoryLimit) : countInRange file = file := by
  rw [countInRange, clampDirectoryCount?_eq, if_neg fun hout => Nat.not_lt.mpr h hout.2]
  rfl

/-- The copy has the bytes of the file but for those of the length. -/
theorem agreeOutside_countInRange (file : Bytes) :
    (countInRange file).AgreeOutside (countPlace file) (countPlace file + 4) file := by
  rw [countInRange, clampDirectoryCount?_eq]
  split
  · rename_i h
    exact Bytes.agreeOutside_overwrite file _ (LittleEndian.ofNat 4 directoryLimit) h.1
  · exact .refl _ _ _

/-- The copy has the length of the file, but no more than sixteen. -/
theorem u32_countInRange {file : Bytes} (h : countPlace file + 4 ≤ file.size) :
    ((countInRange file).u32 (countPlace file)).toNat =
      min (file.u32 (countPlace file)).toNat directoryLimit := by
  rw [countInRange, clampDirectoryCount?_eq]
  split
  · rename_i hout
    have hstored := Bytes.stores_overwrite file _ (LittleEndian.ofNat 4 directoryLimit) h
    have hread := ((Bytes.stores_word32 _ _ 16).mp hstored).2
    rw [Option.getD_some, hread, Nat.min_eq_right (Nat.le_of_lt hout.2)]
    rfl
  · rename_i hin
    rw [Option.getD_none, Nat.min_eq_left (by omega)]

/-- Files that differ in the length alone have it at the same place. -/
theorem countPlace_eq_of_agreeOutside {a b : Bytes}
    (hagree : a.AgreeOutside (countPlace b) (countPlace b + 4) b) :
    countPlace a = countPlace b := by
  have hplace := lt_countPlace b
  have hpointer : a.u32 0x3C = b.u32 0x3C := hagree.u32 (by omega)
  have hmagic : a.u16 ((b.u32 0x3C).toNat + 24) = b.u16 ((b.u32 0x3C).toNat + 24) :=
    hagree.u16 (by omega)
  simp only [countPlace, hpointer, hmagic]

/-- The copy has the length at the place where the file has it. -/
theorem countPlace_countInRange (file : Bytes) :
    countPlace (countInRange file) = countPlace file :=
  countPlace_eq_of_agreeOutside (agreeOutside_countInRange file)

/-- The copy has a length in range. -/
theorem u32_countInRange_le (file : Bytes)
    (h : countPlace (countInRange file) + 4 ≤ (countInRange file).size) :
    ((countInRange file).u32 (countPlace (countInRange file))).toNat ≤ directoryLimit := by
  rw [countPlace_countInRange, (agreeOutside_countInRange file).size] at h
  rw [countPlace_countInRange, u32_countInRange h]
  exact Nat.min_le_right _ _

/-- The headers of a narrow image with one section, from the front of the file to the length of the
directory array, and what follows. -/
def headersOnly (optionalSize count : UInt8) (rest : List UInt8) : Bytes :=
  .ofOctets ([0x4D, 0x5A] ++ List.replicate 58 0 ++ [0x40, 0, 0, 0] ++
    [0x50, 0x45, 0, 0, 0x4C, 1, 1, 0] ++ List.replicate 12 0 ++ [optionalSize, 0, 2, 1] ++
    [0x0B, 1] ++ List.replicate 90 0 ++ [count, 0, 0, 0] ++ rest)

theorem size_headersOnly (optionalSize count : UInt8) (rest : List UInt8) :
    (headersOnly optionalSize count rest).size = 184 + rest.length := by
  rw [headersOnly, Bytes.size_ofOctets]
  simp only [List.length_append, List.length_cons, List.length_nil, List.length_replicate]

theorem imageHeader_headersOnly (optionalSize count : UInt8) (rest : List UInt8) :
    (headersOnly optionalSize count rest).u32 0x3C = 0x40 := by
  rw [Bytes.u32, Bytes.natAt_eq]
  rfl

theorem countPlace_headersOnly (optionalSize count : UInt8) (rest : List UInt8) :
    countPlace (headersOnly optionalSize count rest) = 180 := by
  have hmagic : (headersOnly optionalSize count rest).u16 0x58 = 0x10B := by
    rw [Bytes.u16, Bytes.natAt_eq]
    rfl
  rw [countPlace, imageHeader_headersOnly]
  change 0x58 + directoryCountOffset
    ((headersOnly optionalSize count rest).u16 0x58 = magicWide) = 180
  rw [hmagic]
  rfl

theorem u32_headersOnly (optionalSize count : UInt8) (rest : List UInt8) :
    ((headersOnly optionalSize count rest).u32 180).toNat = count.toNat := by
  have hlt := count.toNat_lt
  have hvalue : LittleEndian.toNat [count, 0, 0, 0] = count.toNat := by
    simp [LittleEndian.toNat]
  rw [Bytes.u32, Bytes.natAt_eq]
  change (UInt32.ofNat (LittleEndian.toNat [count, 0, 0, 0])).toNat = count.toNat
  rw [hvalue]
  exact UInt32.toNat_ofNat_of_lt' (by rw [UInt32.size]; omega)

/-- The copy of such a file differs from it in the length alone. -/
theorem countInRange_headersOnly (optionalSize : UInt8) {count : UInt8} (rest : List UInt8)
    (h : 16 < count.toNat) :
    countInRange (headersOnly optionalSize count rest) = headersOnly optionalSize 16 rest := by
  have hout : 180 + 4 ≤ (headersOnly optionalSize count rest).size ∧
      directoryLimit < ((headersOnly optionalSize count rest).u32 180).toNat := by
    rw [size_headersOnly, u32_headersOnly]
    exact ⟨Nat.le_add_right 184 rest.length, h⟩
  have hpatch : (LittleEndian.ofNat 4 directoryLimit).take
      ((headersOnly optionalSize count rest).size - 180) = [16, 0, 0, 0] :=
    List.take_of_length_le (by rw [LittleEndian.length_ofNat]; omega)
  rw [countInRange, clampDirectoryCount?_eq, countPlace_headersOnly, if_pos hout,
    Option.getD_some]
  apply Bytes.ext_octets
  rw [Bytes.octets_overwrite, hpatch]
  rfl

end PeImage.OptionalHeader
