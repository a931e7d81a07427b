import PeImage.Bytes.Basic

/-!
# Tables of words and records

A table of equal records is cut out of a list of bytes without looking at the values: record `i`
is the `size` bytes from `size * i` on, and a rest too short for a record is no record. The words
that `wordsAt` reads at an offset are the numbers of the records of the bytes from there on, so a
limit on their count does no more than cut the list. A field of a record is the number of the bytes
from its place on.
-/

namespace PeImage

/-- The whole records of `size` bytes that follow each other from the start of the bytes on. -/
def records (size : Nat) (octets : List UInt8) : List (List UInt8) :=
  (List.range (octets.length / size)).map fun i => (octets.drop (size * i)).take size

/-- Every record has all of its bytes. -/
theorem length_of_mem_records {size : Nat} {octets record : List UInt8}
    (h : record ∈ records size octets) : record.length = size := by
  obtain ⟨i, hi, rfl⟩ := List.mem_map.mp h
  have hend : size * (i + 1) ≤ octets.length :=
    Nat.le_trans (Nat.mul_le_mul_left size (List.mem_range.mp hi)) (Nat.mul_div_le ..)
  rw [Nat.mul_add, Nat.mul_one] at hend
  simp only [List.length_take, List.length_drop]
  omega

@[simp] theorem length_records (size : Nat) (octets : List UInt8) :
    (records size octets).length = octets.length / size := by
  simp [records]

namespace LittleEndian

/-- The word in the two bytes from a place on. -/
def word16Of (octets : List UInt8) (place : Nat) : UInt16 :=
  UInt16.ofNat (toNat ((octets.drop place).take 2))

/-- The word in the four bytes from a place on. -/
def word32Of (octets : List UInt8) (place : Nat) : UInt32 :=
  UInt32.ofNat (toNat ((octets.drop place).take 4))

end LittleEndian

namespace Bytes

/-- The number at an offset is that of the bytes from there on. -/
theorem natAt_eq (bytes : Bytes) (offset width : Nat) :
    bytes.natAt offset width = LittleEndian.toNat ((bytes.octets.drop offset).take width) := by
  rw [natAt, octetsAt_eq]

/-- The 16-bit word at an offset is that of the bytes from there on. -/
theorem u16_eq_word16Of (bytes : Bytes) (offset : Nat) :
    bytes.u16 offset = LittleEndian.word16Of bytes.octets offset := by
  rw [u16, natAt_eq, LittleEndian.word16Of]

/-- The 32-bit word at an offset is that of the bytes from there on. -/
theorem u32_eq_word32Of (bytes : Bytes) (offset : Nat) :
    bytes.u32 offset = LittleEndian.word32Of bytes.octets offset := by
  rw [u32, natAt_eq, LittleEndian.word32Of]

/-- The words read at an offset are the numbers of the records stored there, cut to the limit. -/
theorem wordsAt_eq_records (bytes : Bytes) (offset width limit : Nat) :
    bytes.wordsAt offset width limit =
      ((records width (bytes.octets.drop offset)).map LittleEndian.toNat).take limit := by
  rw [wordsAt, wordCount, records, List.map_map, ← List.map_take, List.take_range,
    List.length_drop, length_octets]
  refine List.map_congr_left fun i _ => ?_
  rw [wordAt, natAt_eq, Function.comp_apply, List.drop_drop]

/-- The words before the first zero are cut to the limit in the same way. -/
theorem nonzeroWordsAt_eq_records (bytes : Bytes) (offset width limit : Nat) :
    bytes.nonzeroWordsAt offset width limit =
      (((records width (bytes.octets.drop offset)).map LittleEndian.toNat).takeWhile
        (· ≠ 0)).take limit := by
  rw [nonzeroWordsAt_eq, wordsAt_eq_records, List.take_takeWhile]

/-- Of no words there are none. -/
theorem wordsAt_zero (bytes : Bytes) (offset width : Nat) : bytes.wordsAt offset width 0 = [] := by
  rw [wordsAt, wordCount, Nat.zero_min, List.range_zero, List.map_nil]

/-- The first word is followed by the words behind it, unless it is not whole. -/
theorem wordsAt_succ (bytes : Bytes) (offset : Nat) {width : Nat} (hwidth : 0 < width)
    (limit : Nat) :
    bytes.wordsAt offset width (limit + 1) =
      if offset + width ≤ bytes.size then
        bytes.natAt offset width :: bytes.wordsAt (offset + width) width limit
      else [] := by
  split
  · have hcount : bytes.wordCount offset width (limit + 1) =
        bytes.wordCount (offset + width) width limit + 1 := by
      have hleft : bytes.size - offset = (bytes.size - (offset + width)) + width := by omega
      rw [wordCount, wordCount, hleft, Nat.add_div_right _ hwidth]
      omega
    rw [wordsAt, hcount, List.range_succ_eq_map, List.map_cons, List.map_map, wordsAt]
    congr 1
    refine List.map_congr_left fun i _ => ?_
    rw [Function.comp_apply, wordAt, wordAt, Nat.succ_eq_add_one, Nat.mul_add, Nat.mul_one,
      Nat.add_assoc, Nat.add_comm width]
  · have hnone : (bytes.size - offset) / width = 0 := Nat.div_eq_of_lt (by omega)
    rw [wordsAt, wordCount, hnone, Nat.min_zero, List.range_zero, List.map_nil]

end Bytes

end PeImage
