import PeImage.Limits
import PeImage.Proofs.Bytes.Words
import PeImage.Text.Terminated

/-!
# Reading a part of the bytes

A part that was clipped out of the bytes is read as the bytes themselves are at the places it was
taken from, provided that the part is long enough for what is read. Nothing is lost either where
the length of the part is cut to the range of words, because no bytes are longer than that.
-/

namespace PeImage

/-- The records of so many bytes as `count` records have are the first `count` of all. -/
theorem records_take {size : Nat} (hsize : 0 < size) (count : Nat) (octets : List UInt8) :
    records size (octets.take (count * size)) = (records size octets).take count := by
  have hcount : (octets.take (count * size)).length / size = min count (octets.length / size) := by
    rw [List.length_take]
    by_cases h : count * size ≤ octets.length
    · rw [Nat.min_eq_left h, Nat.mul_div_cancel _ hsize,
        Nat.min_eq_left ((Nat.le_div_iff_mul_le hsize).mpr h)]
    · have hlt : octets.length / size < count := (Nat.div_lt_iff_lt_mul hsize).mpr (by omega)
      rw [Nat.min_eq_right (by omega), Nat.min_eq_right (by omega)]
  rw [records, records, hcount, ← List.map_take, List.take_range]
  refine List.map_congr_left fun i hi => ?_
  have hi : i + 1 ≤ count := by
    rw [List.mem_range] at hi
    omega
  have hend : size * i + size ≤ count * size := by
    have hmul := Nat.mul_le_mul_right size hi
    rwa [Nat.succ_mul, Nat.mul_comm] at hmul
  rw [List.drop_take, List.take_take, Nat.min_eq_left (by omega)]

namespace Bytes

/-- A bound on the bytes is one on every part of them. -/
theorem size_clip_le {bytes : Bytes} {bound : Nat} (h : bytes.size ≤ bound) (offset length : Nat) :
    (bytes.clip offset length).size ≤ bound := by
  rw [size_clip]
  omega

/-- A length that is cut to the range of words clips the same part. -/
theorem clip_min_largest (bytes : Bytes) (hsize : bytes.size ≤ Limits.largest)
    (offset length : Nat) : bytes.clip offset (min length Limits.largest) =
      bytes.clip offset length := by
  apply ext_octets
  rw [octets_clip, octets_clip]
  rcases Nat.le_total length Limits.largest with hfits | hlarge
  · rw [Nat.min_eq_left hfits]
  · have hrest : (bytes.octets.drop offset).length ≤ Limits.largest := by
      rw [List.length_drop, length_octets]
      omega
    rw [Nat.min_eq_right hlarge, List.take_of_length_le hrest,
      List.take_of_length_le (Nat.le_trans hrest hlarge)]

/-- The part from an offset to the end of the bytes. -/
theorem octets_clip_rest (bytes : Bytes) (offset : Nat) :
    (bytes.clip offset (bytes.size - offset)).octets = bytes.octets.drop offset := by
  rw [octets_clip, List.take_of_length_le]
  exact Nat.le_of_eq (by rw [List.length_drop, length_octets])

/-- A number of a part is that of the bytes. -/
theorem natAt_clip (bytes : Bytes) (offset : Nat) {position width length : Nat}
    (h : position + width ≤ length) :
    (bytes.clip offset length).natAt position width = bytes.natAt (offset + position) width := by
  rw [natAt_eq, natAt_eq, octets_clip, List.drop_take, List.take_take, List.drop_drop,
    Nat.min_eq_left (by omega)]

/-- The words of a part that has room for `limit` words are those of the bytes. -/
theorem wordsAt_clip (bytes : Bytes) (offset : Nat) {width limit more : Nat} (hwidth : 0 < width)
    (h : limit ≤ more) :
    (bytes.clip offset (limit * width)).wordsAt 0 width more = bytes.wordsAt offset width limit := by
  rw [wordsAt_eq_records, wordsAt_eq_records, octets_clip, List.drop_zero, records_take hwidth,
    List.map_take, List.take_take, Nat.min_eq_right h]

/-- The string in a part that has room for its cap is that of the bytes. -/
theorem textAt_clip (bytes : Bytes) (offset : Nat) {position cap length : Nat}
    (h : position + cap ≤ length) :
    (bytes.clip offset length).textAt position cap = bytes.textAt (offset + position) cap := by
  rw [textAt, textAt, terminatedAt_eq, terminatedAt_eq, terminated, terminated, octets_clip,
    List.drop_take, List.take_take, List.drop_drop, Nat.min_eq_left (by omega)]

end Bytes

end PeImage
