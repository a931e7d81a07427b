import PeImage.Bytes.LittleEndian
import PeImage.Bytes.Run

/-!
# File bytes

The contents of a file or of a part of it. All offsets and lengths are natural numbers, so an
offset past the end is an ordinary argument: `clip` keeps what lies inside, `slice?` insists that
all of it does. The view of a byte string is its list `octets`; every reader here is one of
`drop`, `take` and a little-endian number on that list.
-/

namespace PeImage

/-- The bytes of a file or of a part of it. -/
abbrev Bytes := ByteArray

namespace Bytes

/-- The bytes in order. -/
def octets (bytes : Bytes) : List UInt8 := bytes.data.toList

/-- The bytes of a list. -/
def ofOctets (octets : List UInt8) : Bytes := ⟨octets.toArray⟩

/-- The part of the `length` bytes from `offset` on that lies inside. -/
def clip (bytes : Bytes) (offset length : Nat) : Bytes :=
  bytes.extract offset (min (offset + length) bytes.size)

/-- The `length` bytes from `offset` on, provided that all of them lie inside. -/
def slice? (bytes : Bytes) (offset length : Nat) : Option Bytes :=
  if offset + length ≤ bytes.size then some (bytes.clip offset length) else none

/-- The part of the `length` bytes from `offset` on that lies inside, as a list. -/
def octetsAt (bytes : Bytes) (offset length : Nat) : List UInt8 :=
  (bytes.clip offset length).octets

/-- The little-endian number in the `width` bytes at `offset`; bytes past the end count as
absent. -/
def natAt (bytes : Bytes) (offset width : Nat) : Nat :=
  LittleEndian.toNat (bytes.octetsAt offset width)

/-- The byte at `offset`, zero past the end. -/
def u8 (bytes : Bytes) (offset : Nat) : UInt8 := UInt8.ofNat (bytes.natAt offset 1)

/-- The 16-bit word at `offset`. -/
def u16 (bytes : Bytes) (offset : Nat) : UInt16 := UInt16.ofNat (bytes.natAt offset 2)

/-- The 32-bit word at `offset`. -/
def u32 (bytes : Bytes) (offset : Nat) : UInt32 := UInt32.ofNat (bytes.natAt offset 4)

/-- The 64-bit word at `offset`. -/
def u64 (bytes : Bytes) (offset : Nat) : UInt64 := UInt64.ofNat (bytes.natAt offset 8)

/-- The 16-bit word at `offset`, if both of its bytes lie inside. -/
def u16? (bytes : Bytes) (offset : Nat) : Option UInt16 :=
  if offset + 2 ≤ bytes.size then some (bytes.u16 offset) else none

/-- The 32-bit word at `offset`, if all of its bytes lie inside. -/
def u32? (bytes : Bytes) (offset : Nat) : Option UInt32 :=
  if offset + 4 ≤ bytes.size then some (bytes.u32 offset) else none

/-- The count of whole numbers of `width` bytes stored from `offset` on, but no more than `limit`. -/
def wordCount (bytes : Bytes) (offset width limit : Nat) : Nat :=
  min limit ((bytes.size - offset) / width)

/-- The little-endian number of `width` bytes at a position of the array that starts at `offset`. -/
def wordAt (bytes : Bytes) (offset width index : Nat) : Nat :=
  bytes.natAt (offset + width * index) width

/-- The whole little-endian numbers of `width` bytes stored from `offset` on, at most `limit` of
them and fewer where the bytes end first. -/
def wordsAt (bytes : Bytes) (offset width limit : Nat) : List Nat :=
  (List.range (bytes.wordCount offset width limit)).map (bytes.wordAt offset width)

/-- The numbers of `wordsAt` before the first zero. -/
def nonzeroWordsAt (bytes : Bytes) (offset width limit : Nat) : List Nat :=
  runWhile (· ≠ 0) (bytes.wordAt offset width) (bytes.wordCount offset width limit) 0

/-- The bytes with those from `offset` on replaced by `patch`; what would lie past the end is
dropped. -/
def overwrite (bytes : Bytes) (offset : Nat) (patch : List UInt8) : Bytes :=
  bytes.clip 0 offset ++ ofOctets (patch.take (bytes.size - offset)) ++
    bytes.clip (offset + patch.length) bytes.size

@[simp] theorem length_octets (bytes : Bytes) : bytes.octets.length = bytes.size := rfl

@[simp] theorem octets_ofOctets (octets : List UInt8) : (ofOctets octets).octets = octets := rfl

@[simp] theorem size_ofOctets (octets : List UInt8) : (ofOctets octets).size = octets.length := rfl

/-- Two byte strings with the same bytes are equal. -/
theorem ext_octets {a b : Bytes} (h : a.octets = b.octets) : a = b :=
  ByteArray.ext (Array.toList_inj.mp h)

@[simp] theorem octets_append (a b : Bytes) :
    octets (a ++ b : ByteArray) = a.octets ++ b.octets := by
  simp [octets, ByteArray.data_append]

/-- Clipping drops what lies before the offset and takes the length from the rest. -/
@[simp] theorem octets_clip (bytes : Bytes) (offset length : Nat) :
    (bytes.clip offset length).octets = (bytes.octets.drop offset).take length := by
  have hsize : bytes.size = bytes.data.toList.length := rfl
  simp only [clip, octets, ByteArray.data_extract, Array.toList_extract, List.extract_eq_take_drop]
  rw [hsize]
  by_cases h : offset + length ≤ bytes.data.toList.length
  · rw [Nat.min_eq_left h, Nat.add_sub_cancel_left]
  · rw [Nat.min_eq_right (by omega), List.take_of_length_le (by simp),
      List.take_of_length_le (by simp only [List.length_drop]; omega)]

/-- A clipped part has the length asked for or what is left of the bytes. -/
@[simp] theorem size_clip (bytes : Bytes) (offset length : Nat) :
    (bytes.clip offset length).size = min length (bytes.size - offset) := by
  rw [← length_octets, octets_clip, List.length_take, List.length_drop, length_octets]

/-- Overwriting keeps the bytes before and behind the patch. -/
theorem octets_overwrite (bytes : Bytes) (offset : Nat) (patch : List UInt8) :
    (bytes.overwrite offset patch).octets =
      bytes.octets.take offset ++ patch.take (bytes.size - offset) ++
        bytes.octets.drop (offset + patch.length) := by
  have hrest : (bytes.octets.drop (offset + patch.length)).length ≤ bytes.size := by
    simp only [List.length_drop, length_octets]
    omega
  rw [overwrite, octets_append, octets_append, octets_clip, octets_clip, octets_ofOctets,
    List.drop_zero, List.take_of_length_le hrest]

/-- Overwriting keeps the size. -/
theorem size_overwrite (bytes : Bytes) (offset : Nat) (patch : List UInt8) :
    (bytes.overwrite offset patch).size = bytes.size := by
  rw [← length_octets, octets_overwrite]
  simp only [List.length_append, List.length_take, List.length_drop, length_octets]
  omega

/-- The view of a part as a list. -/
theorem octetsAt_eq (bytes : Bytes) (offset length : Nat) :
    bytes.octetsAt offset length = (bytes.octets.drop offset).take length :=
  octets_clip bytes offset length

/-- A number of `width` bytes is below the range of its width. -/
theorem natAt_lt (bytes : Bytes) (offset width : Nat) :
    bytes.natAt offset width < LittleEndian.range width := by
  refine Nat.lt_of_lt_of_le (LittleEndian.toNat_lt _) (LittleEndian.range_le_range ?_)
  simp only [octetsAt_eq, List.length_take]
  omega

/-- A byte inside is that of the list. -/
theorem u8_eq_getElem (bytes : Bytes) (offset : Nat) (h : offset < bytes.octets.length) :
    bytes.u8 offset = bytes.octets[offset] := by
  rw [u8, natAt, octetsAt_eq, List.drop_eq_getElem_cons h, List.take_succ_cons, List.take_zero,
    LittleEndian.toNat, LittleEndian.toNat, Nat.mul_zero, Nat.add_zero, UInt8.ofNat_toNat]

@[simp] theorem length_wordsAt (bytes : Bytes) (offset width limit : Nat) :
    (bytes.wordsAt offset width limit).length = bytes.wordCount offset width limit := by
  simp [wordsAt]

/-- The numbers before the first zero are a start of all numbers. -/
theorem nonzeroWordsAt_eq (bytes : Bytes) (offset width limit : Nat) :
    bytes.nonzeroWordsAt offset width limit =
      (bytes.wordsAt offset width limit).takeWhile (· ≠ 0) := by
  rw [nonzeroWordsAt, runWhile_eq, wordsAt, List.range_eq_range']

end Bytes

end PeImage
