/-!
# Little-endian numbers

A number kept in a fixed count of bytes, least significant byte first. Reading back what was
written gives the number modulo the range of its width, and writing what was read gives the
bytes themselves, so the two directions are inverse on every width.
-/

namespace PeImage.LittleEndian

/-- The number a list of bytes stands for, least significant byte first. -/
def toNat : List UInt8 → Nat
  | [] => 0
  | byte :: rest => byte.toNat + 256 * toNat rest

/-- The count of numbers that a width can hold. -/
def range : (width : Nat) → Nat
  | 0 => 1
  | width + 1 => 256 * range width

/-- The lowest `width` bytes of a number, least significant byte first. -/
def ofNat : (width : Nat) → Nat → List UInt8
  | 0, _ => []
  | width + 1, n => UInt8.ofNat n :: ofNat width (n / 256)

/-- A wider number has at least as large a range. -/
theorem range_le_range {a b : Nat} (h : a ≤ b) : range a ≤ range b := by
  induction h with
  | refl => exact Nat.le_refl _
  | step _ ih =>
    refine Nat.le_trans ih ?_
    simp only [range]
    omega

/-- Exactly `width` bytes are written. -/
@[simp] theorem length_ofNat (width n : Nat) : (ofNat width n).length = width := by
  induction width generalizing n with
  | zero => rfl
  | succ width ih => simp [ofNat, ih]

/-- A list of bytes stands for a number below the range of its length. -/
theorem toNat_lt (bytes : List UInt8) : toNat bytes < range bytes.length := by
  induction bytes with
  | nil => simp [toNat, range]
  | cons byte rest ih =>
    have hb : byte.toNat < 256 := byte.toNat_lt
    simp only [toNat, List.length_cons, range]
    omega

/-- Reading what was written gives the number modulo the range of the width. -/
theorem toNat_ofNat (width n : Nat) : toNat (ofNat width n) = n % range width := by
  induction width generalizing n with
  | zero => simp [ofNat, toNat, range, Nat.mod_one]
  | succ width ih =>
    simp only [ofNat, toNat, range, ih]
    rw [Nat.mod_mul]
    simp [UInt8.toNat_ofNat']

/-- Writing what was read gives the bytes back. -/
theorem ofNat_toNat (bytes : List UInt8) : ofNat bytes.length (toNat bytes) = bytes := by
  induction bytes with
  | nil => rfl
  | cons byte rest ih =>
    have hb : byte.toNat < 256 := byte.toNat_lt
    have hdiv : (byte.toNat + 256 * toNat rest) / 256 = toNat rest := by omega
    have hlow : UInt8.ofNat (byte.toNat + 256 * toNat rest) = byte := by
      apply UInt8.toNat_inj.mp
      simp only [UInt8.toNat_ofNat']
      omega
    simp only [List.length_cons, toNat, ofNat, hdiv, hlow, ih]

end PeImage.LittleEndian
