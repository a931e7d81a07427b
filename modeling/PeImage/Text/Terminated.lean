import PeImage.Bytes.Basic
import PeImage.Text.Utf8

/-!
# Terminated strings

A string that ends at its first NUL byte, at a cap on its length, or where the bytes end,
whichever comes first. Only the bytes before that place belong to it.
-/

namespace PeImage

/-- The bytes before the first NUL, at most `cap` of them. -/
def terminated (cap : Nat) (octets : List UInt8) : List UInt8 :=
  (octets.take cap).takeWhile (· ≠ 0)

/-- The bytes of the string at an offset. -/
def Bytes.terminatedAt (bytes : Bytes) (offset cap : Nat) : List UInt8 :=
  runWhile (· ≠ 0) bytes.u8 (min cap (bytes.size - offset)) offset

/-- The text of the string at an offset. -/
def Bytes.textAt (bytes : Bytes) (offset cap : Nat) : String :=
  Utf8.decode (bytes.terminatedAt offset cap)

/-- The string at an offset is that of the bytes from there on. -/
theorem Bytes.terminatedAt_eq (bytes : Bytes) (offset cap : Nat) :
    bytes.terminatedAt offset cap = terminated cap (bytes.octets.drop offset) := by
  have hbytes : (List.range' offset (min cap (bytes.size - offset))).map bytes.u8 =
      (bytes.octets.drop offset).take cap := by
    apply List.ext_getElem
    · simp
    · intro i hi _
      have hinside : offset + i < bytes.octets.length := by
        simp only [List.length_map, List.length_range'] at hi
        simp only [length_octets]
        omega
      simp [u8_eq_getElem bytes (offset + i) hinside]
  rw [terminatedAt, runWhile_eq, hbytes, terminated]

/-- A string is a start of the bytes from its offset on. -/
theorem Bytes.terminatedAt_prefix (bytes : Bytes) (offset cap : Nat) :
    bytes.terminatedAt offset cap <+: bytes.octets.drop offset := by
  rw [terminatedAt_eq]
  exact (List.takeWhile_prefix _).trans (List.take_prefix _ _)

/-- A string ends inside the bytes. -/
theorem Bytes.terminatedAt_inside (bytes : Bytes) (offset cap : Nat) :
    (bytes.terminatedAt offset cap).length ≤ bytes.size - offset := by
  have hlength := (bytes.terminatedAt_prefix offset cap).length_le
  rwa [List.length_drop, length_octets] at hlength

/-- Where a string that may have a byte has none, a NUL stands. -/
theorem Bytes.u8_of_terminatedAt_nil {bytes : Bytes} {offset cap : Nat} (hcap : 0 < cap)
    (hinside : offset < bytes.size) (h : bytes.terminatedAt offset cap = []) :
    bytes.u8 offset = 0 := by
  obtain ⟨rest, hrest⟩ :=
    Nat.exists_eq_add_of_lt (show 0 < min cap (bytes.size - offset) by omega)
  rw [terminatedAt, hrest, Nat.zero_add, runWhile] at h
  split at h
  · exact absurd h (List.cons_ne_nil _ _)
  · rename_i hbyte
    exact Decidable.not_not.mp (mt decide_eq_true hbyte)

end PeImage
