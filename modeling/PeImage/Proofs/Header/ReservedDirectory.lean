import Mathlib.Tactic.MkIffOfInductiveProp
import PeImage.Proofs.Header.Decoded

/-!
# The reserved directory

The directory array has sixteen entries with a meaning, and the meaning of the last is that it is
reserved. A file that uses it makes an engine stop with a panic, for which loading has a fault and
checked loading a trap. It comes up in the order of decoding: what stands in front of the array has
to be decoded first, and the section table behind it is never looked at.
-/

namespace PeImage

variable {α β : Type}

/-- A header fault is not the use of the reserved directory. -/
theorem ofHeader_ne_reserved {result : Except HeaderFault α} :
    ofHeader result ≠ .error .reservedDirectory := by
  cases result <;> exact fun h => nomatch h

/-- Behind a decoded header, the reserved directory is in use where the rest finds it so. -/
theorem ofHeader_bind_eq_reserved {result : Except HeaderFault α} {next : α → Except Fault β} :
    (ofHeader result >>= next) = .error .reservedDirectory ↔
      ∃ value, result = .ok value ∧ next value = .error .reservedDirectory := by
  rw [bind_eq_error, or_iff_right ofHeader_ne_reserved]
  simp only [ofHeader_eq_ok]

/-- A decoded header declares the reserved directory where sixteen entries are counted and the last
one is not zero. -/
theorem OptionalHeader.isSome_reserved_readAt (file : Bytes) (offset : Nat) (isWide : Bool) :
    ((readAt file offset isWide).directory? .reserved).isSome ↔
      let place := offset + directoryCountOffset isWide
      directoryLimit ≤ (file.u32 place).toNat ∧
        ¬ (file.u32 (place + 124) = 0 ∧ file.u32 (place + 128) = 0) := by
  dsimp only
  generalize hplace : offset + directoryCountOffset isWide = place
  have hslot : (readAt file offset isWide).directory? .reserved =
      if 15 < (file.u32 place).toNat then rangeAt? file (place + 4) 15 else none := by
    rw [directory?, DirectoryMap.get?, readAt]
    dsimp only
    rw [hplace, directoriesAt]
    exact Vector.getElem_ofFn _
  rw [hslot, rangeAt?, directoryLimit]
  by_cases hcount : 15 < (file.u32 place).toNat
  · rw [if_pos hcount, and_iff_right (show 16 ≤ (file.u32 place).toNat from hcount)]
    split
    · rename_i hzero
      exact iff_of_false Bool.false_ne_true fun h => h hzero
    · rename_i hzero
      exact iff_of_true rfl hzero
  · rw [if_neg hcount]
    exact iff_of_false Bool.false_ne_true fun h => hcount h.1

namespace Headers

/-- The optional header is refused for its last directory where it is announced and decoded and
declares that directory. -/
theorem readOptional_eq_reserved (file : Bytes) (place : Nat) (header : StoredFileHeader) :
    readOptional file place header = .error .reservedDirectory ↔
      header.optionalSize ≠ 0 ∧ ∃ optional, OptionalHeader.read file (place + 24) = .ok optional ∧
        (optional.directory? .reserved).isSome := by
  unfold readOptional
  dsimp only
  simp only [check_eq_error, reduceCtorEq, and_false, false_or, ofHeader_bind_eq_reserved, and_true]
  refine and_congr_right fun _ => exists_congr fun _ => and_congr_right fun _ => ?_
  exact or_iff_left fun h => nomatch h.2

/-- Decoding finds the reserved directory in use where it comes to the optional header and finds it
so there. -/
theorem read_eq_reserved (file : Bytes) :
    read file = .error .reservedDirectory ↔
      ∃ place header, DosHeader.imageHeaderPlace file = .ok place ∧
        RichHeader.check file place.toNat = .ok () ∧
        StoredFileHeader.read file (place.toNat + 4) = .ok header ∧
        readOptional file place.toNat header = .error .reservedDirectory := by
  unfold read
  simp only [ofHeader_bind_eq_reserved]
  constructor
  · rintro ⟨place, hplace, _, hrich, header, hheader, h⟩
    rcases bind_eq_error.mp h with hoptional | ⟨optional, _, h⟩
    · exact ⟨place, header, hplace, hrich, hheader, hoptional⟩
    · obtain ⟨sections, _, h⟩ := ofHeader_bind_eq_reserved.mp h
      exact nomatch h
  · rintro ⟨place, header, hplace, hrich, hheader, hoptional⟩
    exact ⟨place, hplace, (), hrich, header, hheader, bind_eq_error.mpr (Or.inl hoptional)⟩

end Headers

namespace Image

open OptionalHeader

/-- The file is an image up to its directory array, which has sixteen entries, and the last one is
in use. -/
@[mk_iff]
structure UsesReserved (file : Bytes) : Prop where
  signature : file.u16 0 = DosHeader.signature
  imageSignature : file.u32 (file.u32 0x3C).toNat = DosHeader.imageSignature
  behindDos : DosHeader.byteSize ≤ (file.u32 0x3C).toNat
  rich : RichHeader.check file (file.u32 0x3C).toNat = .ok ()
  announced : file.u16 ((file.u32 0x3C).toNat + 20) ≠ 0
  magic : file.u16 ((file.u32 0x3C).toNat + 24) = magic32 ∨
    file.u16 ((file.u32 0x3C).toNat + 24) = magicWide
  inside : countPlace file + 4 + 8 * directoryLimit ≤ file.size
  counted : directoryLimit ≤ (file.u32 (countPlace file)).toNat
  inUse : ¬ (file.u32 (countPlace file + 124) = 0 ∧ file.u32 (countPlace file + 128) = 0)

/-- Setting the length of the directory array right leaves the last entry in use or not. -/
theorem usesReserved_countInRange (file : Bytes) :
    UsesReserved (countInRange file) ↔ UsesReserved file := by
  have hagree := agreeOutside_countInRange file
  have hcount := lt_countPlace file
  have hpointer : (countInRange file).u32 0x3C = file.u32 0x3C := hagree.u32 (by omega)
  have himage : (countInRange file).u32 (file.u32 0x3C).toNat = file.u32 (file.u32 0x3C).toNat :=
    hagree.u32 (by omega)
  have hrange : (countInRange file).u32 (countPlace file + 124) = file.u32 (countPlace file + 124) ∧
      (countInRange file).u32 (countPlace file + 128) = file.u32 (countPlace file + 128) :=
    ⟨hagree.u32 (by omega), hagree.u32 (by omega)⟩
  rw [usesReserved_iff, usesReserved_iff, hpointer, countPlace_countInRange, hagree.size,
    RichHeader.check_countInRange, himage, hrange.1, hrange.2, hagree.u16 (by omega),
    hagree.u16 (by omega), hagree.u16 (by omega)]
  refine and_congr_right fun _ => and_congr_right fun _ => and_congr_right fun _ =>
    and_congr_right fun _ => and_congr_right fun _ => and_congr_right fun _ =>
    and_congr_right fun hinside => and_congr_left fun _ => ?_
  -- Only the length itself may differ, and then both lengths count all sixteen entries.
  rw [u32_countInRange (by omega)]
  omega

/-- Decoding finds the reserved directory in use, if the length of the directory array is in range,
exactly where it is in use. -/
theorem read_eq_reserved_iff {file : Bytes}
    (hcount : countPlace file + 4 ≤ file.size →
      (file.u32 (countPlace file)).toNat ≤ directoryLimit) :
    Headers.read file = .error .reservedDirectory ↔ UsesReserved file := by
  have hplace := lt_countPlace file
  rw [Headers.read_eq_reserved]
  constructor
  · rintro ⟨_, header, hpointer, hrich, hheader, hoptional⟩
    obtain ⟨hsignature, rfl, _, himage, hbehind⟩ :=
      (DosHeader.imageHeaderPlace_eq_ok ..).mp hpointer
    obtain ⟨_, rfl⟩ := (StoredFileHeader.read_eq_ok ..).mp hheader
    obtain ⟨hannounced, optional, hread, hreserved⟩ :=
      (Headers.readOptional_eq_reserved ..).mp hoptional
    obtain ⟨hmagic, hinside, rfl⟩ := (OptionalHeader.read_eq_ok ..).mp hread
    obtain ⟨hcounted, hinUse⟩ := (OptionalHeader.isSome_reserved_readAt ..).mp hreserved
    have hlimit : countPlace file + 4 + 8 * directoryLimit ≤ file.size :=
      Nat.le_trans (Nat.add_le_add_left (Nat.mul_le_mul_left 8 hcounted) _) hinside
    exact ⟨hsignature, himage, hbehind, hrich, hannounced, hmagic, hlimit, hcounted, hinUse⟩
  · intro h
    have hinside := h.inside
    have hlength := hcount (by omega)
    have hread : OptionalHeader.read file ((file.u32 0x3C).toNat + 24) = .ok _ :=
      (OptionalHeader.read_eq_ok ..).mpr ⟨h.magic, Nat.le_trans
        (Nat.add_le_add_left (Nat.mul_le_mul_left 8 hlength) _) hinside, rfl⟩
    refine ⟨file.u32 0x3C, .readAt file ((file.u32 0x3C).toNat + 4),
      (DosHeader.imageHeaderPlace_eq_ok ..).mpr
        ⟨h.signature, rfl, by omega, h.imageSignature, h.behindDos⟩, h.rich,
      (StoredFileHeader.read_eq_ok ..).mpr ⟨by rw [StoredFileHeader.byteSize]; omega, rfl⟩,
      (Headers.readOptional_eq_reserved ..).mpr ⟨h.announced, _, hread, ?_⟩⟩
    exact (OptionalHeader.isSome_reserved_readAt ..).mpr ⟨h.counted, h.inUse⟩

/-- Loading ends with the fault of the reserved directory exactly where that is in use. -/
theorem load_eq_reserved (file : Bytes) :
    load (some file) = .error .reservedDirectory ↔ UsesReserved file := by
  rw [load_some]
  split
  · rename_i hempty
    refine iff_of_false (by simp) fun h => ?_
    have hinside := h.inside
    omega
  · rw [ofFile, bind_eq_error, ← usesReserved_countInRange,
      ← read_eq_reserved_iff (u32_countInRange_le file)]
    refine or_iff_left ?_
    rintro ⟨headers, _, h⟩
    cases h

end Image

end PeImage
