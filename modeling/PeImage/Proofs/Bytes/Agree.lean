import PeImage.Proofs.Bytes.Stored

/-!
# Bytes that agree outside a range

A copy in which a few bytes are replaced has as many bytes as the original, and the same ones
outside the range that was replaced. Whatever is read without touching that range is read from the
copy as from the original.
-/

namespace PeImage.Bytes

/-- As many bytes, and the same ones before `start` and from `stop` on. -/
structure AgreeOutside (start stop : Nat) (a b : Bytes) : Prop where
  size : a.size = b.size
  byte : ∀ i, i < start ∨ stop ≤ i → a.octets[i]? = b.octets[i]?

theorem AgreeOutside.refl (start stop : Nat) (bytes : Bytes) :
    AgreeOutside start stop bytes bytes :=
  ⟨rfl, fun _ _ => rfl⟩

/-- Overwriting replaces the bytes of the patch only. -/
theorem agreeOutside_overwrite (bytes : Bytes) (offset : Nat) (patch : List UInt8)
    (hinside : offset + patch.length ≤ bytes.size) :
    AgreeOutside offset (offset + patch.length) (bytes.overwrite offset patch) bytes where
  size := size_overwrite bytes offset patch
  byte i hi := by
    have hfront : (bytes.octets.take offset).length = offset := by
      rw [List.length_take, length_octets]
      omega
    have hpatch : patch.take (bytes.size - offset) = patch := List.take_of_length_le (by omega)
    rw [octets_overwrite, hpatch]
    rcases hi with hbefore | hbehind
    · rw [List.append_assoc, List.getElem?_append_left (by omega), List.getElem?_take_of_lt hbefore]
    · rw [List.getElem?_append_right (by rw [List.length_append]; omega), List.getElem?_drop,
        List.length_append, hfront, Nat.add_sub_cancel' hbehind]

/-- The patch stands where it was written. -/
theorem stores_overwrite (bytes : Bytes) (offset : Nat) (patch : List UInt8)
    (hinside : offset + patch.length ≤ bytes.size) :
    (bytes.overwrite offset patch).Stores offset patch := by
  have hfront : (bytes.octets.take offset).length = offset := by
    rw [List.length_take, length_octets]
    omega
  have hpatch : patch.take (bytes.size - offset) = patch := List.take_of_length_le (by omega)
  refine ⟨bytes.octets.drop (offset + patch.length), ?_⟩
  rw [octets_overwrite, hpatch, List.append_assoc, List.drop_left' hfront]

/-- Of two patches of one length at one place, the second is what counts. -/
theorem overwrite_overwrite (bytes : Bytes) (offset : Nat) {first second : List UInt8}
    (hlength : first.length = second.length) (hinside : offset + first.length ≤ bytes.size) :
    (bytes.overwrite offset first).overwrite offset second = bytes.overwrite offset second := by
  have hfront : (bytes.octets.take offset).length = offset := by simp; omega
  have hpatched : (bytes.octets.take offset ++ first).length = offset + second.length := by
    rw [List.length_append, hfront, hlength]
  have hfits : first.take (bytes.size - offset) = first := List.take_of_length_le (by omega)
  apply ext_octets
  rw [octets_overwrite, octets_overwrite, octets_overwrite, size_overwrite, hfits,
    List.drop_left' hpatched, List.append_assoc (bytes.octets.take offset) first,
    List.take_left' hfront, hlength]

namespace AgreeOutside

variable {start stop : Nat} {a b : Bytes} (h : AgreeOutside start stop a b)

include h

/-- Parts that do not touch the range are the same. -/
theorem octetsAt {offset length : Nat} (hclear : offset + length ≤ start ∨ stop ≤ offset) :
    a.octetsAt offset length = b.octetsAt offset length := by
  rw [octetsAt_eq, octetsAt_eq]
  refine List.ext_getElem? fun i => ?_
  rcases Nat.lt_or_ge i length with hi | hi
  · rw [List.getElem?_take_of_lt hi, List.getElem?_take_of_lt hi, List.getElem?_drop,
      List.getElem?_drop]
    exact h.byte _ (by omega)
  · rw [List.getElem?_take_eq_none hi, List.getElem?_take_eq_none hi]

theorem clip {offset length : Nat} (hclear : offset + length ≤ start ∨ stop ≤ offset) :
    a.clip offset length = b.clip offset length := ext_octets (h.octetsAt hclear)

theorem natAt {offset width : Nat} (hclear : offset + width ≤ start ∨ stop ≤ offset) :
    a.natAt offset width = b.natAt offset width :=
  congrArg LittleEndian.toNat (h.octetsAt hclear)

theorem u16 {offset : Nat} (hclear : offset + 2 ≤ start ∨ stop ≤ offset) :
    a.u16 offset = b.u16 offset := congrArg UInt16.ofNat (h.natAt hclear)

theorem u32 {offset : Nat} (hclear : offset + 4 ≤ start ∨ stop ≤ offset) :
    a.u32 offset = b.u32 offset := congrArg UInt32.ofNat (h.natAt hclear)

end AgreeOutside

end PeImage.Bytes
