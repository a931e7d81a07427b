import Mathlib.Data.List.Basic
import PeImage.Limits
import PeImage.Text.Terminated

/-!
# The cap on strings

Where a terminated string ends is one number: the distance to the first NUL or to the end of the
bytes, or the cap if that is less. So two caps read the same of a string that ends within both of
them. Of other strings they read texts that differ, and no more than the text depends on the cap.
-/

namespace PeImage

/-- A terminated string is as long as the distance to the first NUL and the cap allow. -/
theorem terminated_eq_take (cap : Nat) (octets : List UInt8) :
    terminated cap octets = octets.take (min (octets.idxOf 0) cap) := by
  have htest : (fun byte : UInt8 => !decide (byte ≠ 0)) = (· == 0) := by
    funext byte
    by_cases h : byte = 0 <;> simp [h]
  rw [terminated, ← List.take_takeWhile, List.takeWhile_eq_take_findIdx_not, List.take_take, htest,
    List.idxOf, Nat.min_comm]

/-- The string at the start of some bytes ends within a cap: up to its NUL, or to the end of the
bytes if there is none, it is not longer than that. -/
def EndsWithin (cap : Nat) (octets : List UInt8) : Prop := octets.idxOf 0 ≤ cap

instance (cap : Nat) (octets : List UInt8) : Decidable (EndsWithin cap octets) :=
  inferInstanceAs (Decidable (_ ≤ _))

/-- The limits with another cap on strings. -/
def Limits.withStringLength (limits : Limits) (stringLength : Nat) : Limits :=
  { limits with stringLength }

@[simp] theorem Limits.stringLength_withStringLength (limits : Limits) (n : Nat) :
    (limits.withStringLength n).stringLength = n := rfl

@[simp] theorem Limits.thunksPerImport_withStringLength (limits : Limits) (n : Nat) :
    (limits.withStringLength n).thunksPerImport = limits.thunksPerImport := rfl

/-- Two caps read texts that are the same under `f`. -/
def CapsAgree (f : String → String) (n m : Nat) (octets : List UInt8) : Prop :=
  f (Utf8.decode (terminated n octets)) = f (Utf8.decode (terminated m octets))

/-- Any caps agree on the texts if these are not looked at. -/
theorem capsAgree_erased (n m : Nat) (octets : List UInt8) : CapsAgree (fun _ => "") n m octets :=
  rfl

/-- Two caps read the same text if the string ends within the smaller one. -/
theorem capsAgree_of_endsWithin {n m : Nat} {octets : List UInt8}
    (h : EndsWithin (min n m) octets) : CapsAgree id n m octets := by
  obtain ⟨hn, hm⟩ := Nat.le_min.mp h
  rw [CapsAgree, terminated_eq_take, terminated_eq_take, Nat.min_eq_left hn, Nat.min_eq_left hm]

/-- Caps that agree on the bytes at a place, if there are any, agree on the text that is read. -/
theorem map_text_congr {f : String → String} {n m : Nat} {place : Option (List UInt8)}
    (h : ∀ octets ∈ place, CapsAgree f n m octets) :
    (place.map fun octets => Utf8.decode (terminated n octets)).map f =
      (place.map fun octets => Utf8.decode (terminated m octets)).map f := by
  cases place with
  | none => rfl
  | some octets => exact congrArg some (h octets rfl)

end PeImage
