import PeImage.Proofs.Checked.Address

/-!
# Clipped and strict slices

The bytes of a clipped slice are those at the positions of its range that the file has, in order.
Clipping by a difference that stops at zero, the early end for nothing left and the cut that is
taken to succeed come to no more than that, for ranges of any length from any offset on.

A strict slice is there exactly if the file has every position of the range, and it is then the
clipped one. Clipped slices of ranges next to each other are next to each other themselves, so it
makes no difference in how many pieces a range is read.
-/

namespace PeImage

namespace Bytes

/-- The bytes at the positions from `start` on and before `stop`, in order. -/
def octetsWithin (bytes : Bytes) (start stop : Nat) : List UInt8 :=
  (bytes.octets.zipIdx.filter fun entry => start ≤ entry.2 ∧ entry.2 < stop).map Prod.fst

/-- Clipping keeps the bytes whose positions are in the range. -/
theorem octets_clip_eq_octetsWithin (bytes : Bytes) (offset length : Nat) :
    (bytes.clip offset length).octets = bytes.octetsWithin offset (offset + length) := by
  -- The bytes before the range, in it and behind it.
  have hparts : bytes.octets = bytes.octets.take offset ++
      ((bytes.octets.drop offset).take length ++ (bytes.octets.drop offset).drop length) := by
    rw [List.take_append_drop, List.take_append_drop]
  have hsize := bytes.length_octets
  rw [octets_clip, octetsWithin]
  conv =>
    rhs
    rw [hparts]
  rw [List.zipIdx_append, List.zipIdx_append, List.filter_append, List.filter_append,
    List.filter_eq_nil_iff.mpr, List.filter_eq_self.mpr, List.filter_eq_nil_iff.mpr,
    List.nil_append, List.append_nil, List.zipIdx_map_fst]
  all_goals
    intro entry hentry
    have hstart := List.le_snd_of_mem_zipIdx hentry
    have hstop := List.snd_lt_add_of_mem_zipIdx hentry
    simp only [List.length_take, List.length_drop, decide_eq_true_eq] at hstart hstop ⊢
    omega

/-- A range that is clipped in two parts is clipped as a whole. -/
theorem clip_add (bytes : Bytes) (offset first second : Nat) :
    bytes.clip offset (first + second) =
      bytes.clip offset first ++ bytes.clip (offset + first) second := by
  apply ext_octets
  rw [octets_append, octets_clip, octets_clip, octets_clip, List.take_add, List.drop_drop]

end Bytes

namespace Checked

/-- Slices of a file are what their ranges say, whatever the offset and the length. A clipped one
consists of the bytes at the positions of the range that the file has; a strict one is there exactly
if these are all positions of the range, also where there are none, and is then the clipped one; and
a range that is read in two parts gives the clipped slice of the whole. -/
theorem slices_eq_ranges (file : Bytes) (hsize : file.size ≤ Limits.largest) (offset length : Nat) :
    clippedSlice file offset length = .ok (file.clip offset length) ∧
    (file.clip offset length).octets = file.octetsWithin offset (offset + length) ∧
    (∀ part, strictSlice? file offset length = some part ↔
      offset + length ≤ file.size ∧ clippedSlice file offset length = .ok part) ∧
    strictSlice? file offset length = file.slice? offset length ∧
    ∀ first second, first + second = length →
      ∃ front back, clippedSlice file offset first = .ok front ∧
        clippedSlice file (offset + first) second = .ok back ∧
        clippedSlice file offset length = .ok (front ++ back) := by
  have hstrict := strictSlice?_eq file hsize offset length
  have hclipped := clippedSlice_eq file hsize
  refine ⟨hclipped offset length, file.octets_clip_eq_octetsWithin offset length, fun part => ?_,
    hstrict, ?_⟩
  · rw [hstrict, hclipped, Bytes.slice?, Option.ite_none_right_eq_some, Option.some.injEq,
      Except.ok.injEq]
  · rintro first second rfl
    exact ⟨_, _, hclipped offset first, hclipped (offset + first) second,
      (hclipped offset _).trans (congrArg _ (file.clip_add offset first second))⟩

/-- Of four bytes, the range of the largest length from the third on has two, and no strict slice.
The range without positions at the end of the bytes has a strict slice, and one position behind it
there is none. -/
theorem slices_eq_ranges_pastEnd :
    (Bytes.ofOctets [1, 2, 3, 4]).size ≤ Limits.largest ∧
      (∃ part, clippedSlice (.ofOctets [1, 2, 3, 4]) 2 Limits.largest = .ok part ∧
        part.octets = [3, 4]) ∧
      strictSlice? (.ofOctets [1, 2, 3, 4]) 2 Limits.largest = none ∧
      strictSlice? (.ofOctets [1, 2, 3, 4]) 4 0 = some .empty ∧
      strictSlice? (.ofOctets [1, 2, 3, 4]) 5 0 = none := by
  have hsize : (Bytes.ofOctets [1, 2, 3, 4]).size ≤ Limits.largest := by decide
  obtain ⟨hclipped, hoctets, hstrict, _⟩ := slices_eq_ranges _ hsize 2 Limits.largest
  have hend := (slices_eq_ranges _ hsize 4 0).2.2.1 .empty
  have hpast := (slices_eq_ranges _ hsize 5 0).2.2.1
  refine ⟨hsize, ⟨_, hclipped, hoctets.trans (by decide)⟩, ?_, hend.mpr ⟨by decide, rfl⟩, ?_⟩
  · exact Option.eq_none_iff_forall_ne_some.mpr fun other hother =>
      absurd ((hstrict other).mp hother).1 (by decide)
  · exact Option.eq_none_iff_forall_ne_some.mpr fun other hother =>
      absurd ((hpast other).mp hother).1 (by decide)

end Checked

end PeImage
