import PeImage.Proofs.Bytes.Words
import PeImage.Text.Utf16

/-!
# Stored bytes

`Bytes.Stores` says that given bytes stand at an offset, and a format is described by the bytes
that a value is written as. Reading is then the inverse of writing: the bytes of a word stand at
an offset exactly when all of them lie inside and the word is what is read there. The same holds
of a counted string of units.
-/

namespace PeImage

namespace LittleEndian

/-- The bytes of a 16-bit word. -/
def word16 (word : UInt16) : List UInt8 := ofNat 2 word.toNat

/-- The bytes of a 32-bit word. -/
def word32 (word : UInt32) : List UInt8 := ofNat 4 word.toNat

/-- The bytes of a 64-bit word. -/
def word64 (word : UInt64) : List UInt8 := ofNat 8 word.toNat

@[simp] theorem length_word16 (word : UInt16) : (word16 word).length = 2 := length_ofNat 2 _

@[simp] theorem length_word32 (word : UInt32) : (word32 word).length = 4 := length_ofNat 4 _

@[simp] theorem length_word64 (word : UInt64) : (word64 word).length = 8 := length_ofNat 8 _

end LittleEndian

/-- The bytes of a counted string: the count of its units and the units. -/
def Utf16.countedOctets (units : List UInt16) : List UInt8 :=
  LittleEndian.ofNat 2 units.length ++ units.flatMap LittleEndian.word16

/-- A counted string takes two bytes for its count and two for each unit. -/
theorem Utf16.length_countedOctets (units : List UInt16) :
    (countedOctets units).length = 2 + 2 * units.length := by
  simp [countedOctets, List.length_flatMap, List.map_const', Nat.mul_comm]

namespace Bytes

/-- The given bytes stand at an offset. -/
def Stores (bytes : Bytes) (offset : Nat) (octets : List UInt8) : Prop :=
  octets <+: bytes.octets.drop offset

instance (bytes : Bytes) (offset : Nat) (octets : List UInt8) :
    Decidable (bytes.Stores offset octets) :=
  inferInstanceAs (Decidable (octets <+: bytes.octets.drop offset))

/-- Bytes that follow each other are stored one behind the other. -/
theorem stores_append (bytes : Bytes) (offset : Nat) (front back : List UInt8) :
    bytes.Stores offset (front ++ back) ↔
      bytes.Stores offset front ∧ bytes.Stores (offset + front.length) back := by
  apply Iff.intro
  · intro h
    obtain ⟨rest, hrest⟩ := h
    refine ⟨⟨back ++ rest, by rw [← hrest, List.append_assoc]⟩, rest, ?_⟩
    rw [← List.drop_drop, ← hrest, List.append_assoc, List.drop_left]
  · intro h
    obtain ⟨⟨middle, hmiddle⟩, rest, hrest⟩ := h
    refine ⟨rest, ?_⟩
    rw [← List.drop_drop, ← hmiddle, List.drop_left] at hrest
    rw [List.append_assoc, hrest, hmiddle]

/-- Bytes are stored at an offset exactly when reading as many of them gives them back. -/
theorem stores_iff_octetsAt (bytes : Bytes) (offset : Nat) (octets : List UInt8) :
    bytes.Stores offset octets ↔ bytes.octetsAt offset octets.length = octets := by
  rw [Stores, octetsAt_eq, List.prefix_iff_eq_take, eq_comm]

/-- Stored bytes all lie inside. -/
theorem Stores.length_le {bytes : Bytes} {offset : Nat} {octets : List UInt8}
    (h : bytes.Stores offset octets) : octets.length ≤ bytes.size - offset := by
  have hlength := List.IsPrefix.length_le h
  rwa [List.length_drop, length_octets] at hlength

/-- A number of some width is stored where its bytes lie inside and it is what they are read as. -/
theorem stores_ofNat (bytes : Bytes) (offset : Nat) {width n : Nat} (hwidth : 0 < width)
    (hn : n < LittleEndian.range width) :
    bytes.Stores offset (LittleEndian.ofNat width n) ↔
      offset + width ≤ bytes.size ∧ bytes.natAt offset width = n := by
  rw [stores_iff_octetsAt, LittleEndian.length_ofNat, natAt]
  have hlength : (bytes.octetsAt offset width).length = min width (bytes.size - offset) := by
    rw [octetsAt_eq, List.length_take, List.length_drop, length_octets]
  apply Iff.intro
  · intro h
    rw [h, LittleEndian.length_ofNat] at hlength
    rw [h, LittleEndian.toNat_ofNat, Nat.mod_eq_of_lt hn]
    exact ⟨by omega, rfl⟩
  · intro h
    obtain ⟨hinside, rfl⟩ := h
    have hwhole : (bytes.octetsAt offset width).length = width := by omega
    have hback := LittleEndian.ofNat_toNat (bytes.octetsAt offset width)
    rw [hwhole] at hback
    exact hback.symm

/-- A 16-bit word is stored where it is read. -/
theorem stores_word16 (bytes : Bytes) (offset : Nat) (word : UInt16) :
    bytes.Stores offset (LittleEndian.word16 word) ↔
      offset + 2 ≤ bytes.size ∧ bytes.u16 offset = word := by
  rw [LittleEndian.word16, stores_ofNat bytes offset (by decide) word.toNat_lt, u16,
    ← UInt16.toNat_inj, UInt16.toNat_ofNat_of_lt' (natAt_lt bytes offset 2)]

/-- A 32-bit word is stored where it is read. -/
theorem stores_word32 (bytes : Bytes) (offset : Nat) (word : UInt32) :
    bytes.Stores offset (LittleEndian.word32 word) ↔
      offset + 4 ≤ bytes.size ∧ bytes.u32 offset = word := by
  rw [LittleEndian.word32, stores_ofNat bytes offset (by decide) word.toNat_lt, u32,
    ← UInt32.toNat_inj, UInt32.toNat_ofNat_of_lt' (natAt_lt bytes offset 4)]

/-- A 64-bit word is stored where it is read. -/
theorem stores_word64 (bytes : Bytes) (offset : Nat) (word : UInt64) :
    bytes.Stores offset (LittleEndian.word64 word) ↔
      offset + 8 ≤ bytes.size ∧ bytes.u64 offset = word := by
  rw [LittleEndian.word64, stores_ofNat bytes offset (by decide) word.toNat_lt, u64,
    ← UInt64.toNat_inj, UInt64.toNat_ofNat_of_lt' (natAt_lt bytes offset 8)]

/-- Records of one size that follow each other are each stored at their place. -/
theorem stores_flatMap {α : Type} {size : Nat} {write : α → List UInt8}
    (hsize : ∀ value, (write value).length = size) (bytes : Bytes) (offset : Nat)
    (values : List α) :
    bytes.Stores offset (values.flatMap write) ↔
      ∀ i value, values[i]? = some value → bytes.Stores (offset + size * i) (write value) := by
  induction values generalizing offset with
  | nil => simp [Stores]
  | cons value rest ih =>
    rw [List.flatMap_cons, stores_append, hsize, ih]
    constructor
    · rintro ⟨hfirst, hrest⟩ i other hother
      cases i with
      | zero =>
        obtain rfl := Option.some.inj hother
        exact hfirst
      | succ i =>
        rw [Nat.mul_succ, Nat.add_comm _ size, ← Nat.add_assoc]
        exact hrest i other hother
    · intro h
      refine ⟨h 0 value rfl, fun i other hother => ?_⟩
      rw [Nat.add_assoc, Nat.add_comm size, ← Nat.mul_succ]
      exact h (i + 1) other hother

/-- Units are stored one behind the other where they are the words read there. -/
theorem stores_units (bytes : Bytes) (offset : Nat) (units : List UInt16) :
    bytes.Stores offset (units.flatMap LittleEndian.word16) ↔
      (bytes.wordsAt offset 2 units.length).map UInt16.ofNat = units := by
  induction units generalizing offset with
  | nil => simp [Stores, wordsAt, wordCount]
  | cons unit rest ih =>
    rw [List.flatMap_cons, stores_append, stores_word16, LittleEndian.length_word16, ih,
      List.length_cons, wordsAt_succ bytes offset (by decide)]
    split
    · rw [List.map_cons, List.cons.injEq]
      exact and_congr_left fun _ => and_iff_right ‹_›
    · rename_i hcut
      simp [hcut]

end Bytes

/-- Units that can be counted in 16 bits are read as a counted string exactly where they are
stored as one. -/
theorem Utf16.countedUnits?_eq_some (bytes : Bytes) (offset : Nat) (units : List UInt16) :
    countedUnits? bytes offset = some units ↔
      units.length < 0x10000 ∧ bytes.Stores offset (countedOctets units) := by
  have hread : countedUnits? bytes offset = some units ↔
      offset + 2 ≤ bytes.size ∧ offset + 2 + 2 * (bytes.u16 offset).toNat ≤ bytes.size ∧
        (bytes.wordsAt (offset + 2) 2 (bytes.u16 offset).toNat).map UInt16.ofNat = units := by
    by_cases hcount : offset + 2 ≤ bytes.size <;> simp [countedUnits?, Bytes.u16?, hcount]
  have hvalue : (bytes.u16 offset).toNat = bytes.natAt offset 2 :=
    UInt16.toNat_ofNat_of_lt' (bytes.natAt_lt offset 2)
  rw [hread, hvalue, countedOctets, Bytes.stores_append, LittleEndian.length_ofNat,
    Bytes.stores_units]
  apply Iff.intro
  · intro h
    obtain ⟨hcount, hunits, rfl⟩ := h
    have hlength : (bytes.wordsAt (offset + 2) 2 (bytes.natAt offset 2)).length =
        bytes.natAt offset 2 := by
      rw [Bytes.length_wordsAt, Bytes.wordCount]
      omega
    have hbound := bytes.natAt_lt offset 2
    rw [List.length_map, hlength, Bytes.stores_ofNat bytes offset (by decide) hbound]
    exact ⟨hbound, ⟨hcount, rfl⟩, rfl⟩
  · intro h
    obtain ⟨hbound, hcount, hunits⟩ := h
    rw [Bytes.stores_ofNat bytes offset (by decide) hbound] at hcount
    have hlength := congrArg List.length hunits
    rw [List.length_map, Bytes.length_wordsAt, Bytes.wordCount] at hlength
    rw [hcount.2]
    exact ⟨hcount.1, by omega, hunits⟩

end PeImage
