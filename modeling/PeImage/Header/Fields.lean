import PeImage.Bytes.Basic
import PeImage.Fault

/-!
# Header fields

Headers are records of fields that follow each other without gaps. A record is checked field by
field, so that a file which ends inside it is reported at the first field that is not there; the
values are then read from their offsets.
-/

namespace PeImage

/-- Checks that a field lies inside the file. -/
def requireField (file : Bytes) (offset size : Nat) : Except HeaderFault Unit :=
  if file.size < offset then .error (.offsetPastEnd offset)
  else if file.size - offset < size then .error (.fieldCut size (file.size - offset))
  else .ok ()

/-- Checks that the fields from an offset on lie inside the file, given their sizes. -/
def requireFields (file : Bytes) : (offset : Nat) → (sizes : List Nat) → Except HeaderFault Unit
  | _, [] => .ok ()
  | offset, size :: sizes => do
    requireField file offset size
    requireFields file (offset + size) sizes

/-- The bytes of fields of the given sizes. -/
def totalSize (sizes : List Nat) : Nat := sizes.foldr (· + ·) 0

/-- A field that is accepted lies inside the file. -/
theorem requireField_eq_ok {file : Bytes} {offset size : Nat} :
    requireField file offset size = .ok () ↔ offset + size ≤ file.size := by
  unfold requireField
  split
  · simp only [reduceCtorEq, false_iff]
    omega
  · split
    · simp only [reduceCtorEq, false_iff]
      omega
    · simp only [true_iff]
      omega

/-- Fields that are accepted lie inside the file, all of them together. -/
theorem requireFields_eq_ok {file : Bytes} {offset : Nat} {sizes : List Nat} :
    requireFields file offset sizes = .ok () ↔
      sizes = [] ∨ offset + totalSize sizes ≤ file.size := by
  induction sizes generalizing offset with
  | nil => simp [requireFields]
  | cons size sizes ih =>
    have hstep : requireFields file offset (size :: sizes) = .ok () ↔
        requireField file offset size = .ok () ∧
          requireFields file (offset + size) sizes = .ok () := by
      simp only [requireFields, bind, Except.bind]
      cases requireField file offset size <;> simp
    rw [hstep, requireField_eq_ok, ih]
    simp only [reduceCtorEq, false_or, totalSize, List.foldr_cons]
    constructor
    · rintro ⟨h, rfl | hrest⟩
      · exact h
      · omega
    · intro h
      exact ⟨by omega, Or.inr (by omega)⟩

end PeImage
