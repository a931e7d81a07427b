import Mathlib.Data.List.GetD
import PeImage.Header.SectionTable
import PeImage.Proofs.Text.Truncated

/-!
# Names in a section header

A raw name has eight bytes, with NULs behind the bytes of a shorter name. So the name of a header is
what a string with a cap of eight bytes holds of it: the characters before the first NUL that fit,
and U+FFFD if the last byte ends inside a character. A name that was cut in this way is kept.
-/

namespace PeImage

/-- NULs behind some bytes do not belong to the string that they start with. -/
theorem takeWhile_append_nuls (octets : List UInt8) (count : Nat) :
    (octets ++ List.replicate count 0).takeWhile (· ≠ 0) = octets.takeWhile (· ≠ 0) := by
  induction octets with
  | nil =>
    rw [List.nil_append, List.takeWhile_replicate]
    rfl
  | cons byte rest ih => rw [List.cons_append, List.takeWhile_cons, List.takeWhile_cons, ih]

namespace SectionHeader

/-- A raw name has the first bytes of the name, and NULs behind them. -/
theorem toList_rawOfName (name : String) :
    (rawOfName name).toList =
      (Utf8.encode name).take 8 ++ List.replicate (8 - (Utf8.encode name).length) 0 := by
  apply List.ext_getElem
  · rw [Vector.length_toList, List.length_append, List.length_take, List.length_replicate]
    omega
  · intro i hi _
    have hbyte : (rawOfName name).toList[i] = (Utf8.encode name).getD i 0 := by
      rw [Vector.getElem_toList]
      exact Vector.getElem_ofFn _
    rw [Vector.length_toList] at hi
    rw [hbyte, List.getElem_append]
    split
    · rename_i htake
      rw [List.length_take] at htake
      rw [List.getElem_take, List.getD_eq_getElem _ _ (by omega)]
    · rename_i htake
      rw [List.length_take] at htake
      rw [List.getElem_replicate, List.getD_eq_default _ _ (by omega)]

/-- The name of a header is the string that a raw name holds. -/
theorem nameOfRaw_rawOfName (name : String) :
    nameOfRaw (rawOfName name) = Utf8.decode (terminated 8 (Utf8.encode name)) := by
  rw [nameOfRaw, toList_rawOfName, takeWhile_append_nuls, terminated]

/-- The name of a header with declared values, whatever the other values are: the longest start of
the declared name that has no NUL and no more than eight bytes, with U+FFFD behind it exactly if
none of the first eight bytes is a NUL and the cut behind them falls inside a character. So a name
without NULs that has at most eight bytes is kept, and the name of a header is kept if it is
declared again. -/
theorem name_ofValues (name : String) (number : Nat)
    (virtualAddress virtualSize rawPointer rawSize bits : UInt32) :
    let header := ofValues name number virtualAddress virtualSize rawPointer rawSize bits
    (∃ held, Utf8.Longest 8 name.toList held ∧
      header.name = String.ofList (held ++
        if 0 ∉ (Utf8.encode name).take 8 ∧ Utf8.Splits 8 name.toList then [Utf8.replacement]
        else [])) ∧
    ('\x00' ∉ name.toList → (Utf8.encode name).length ≤ 8 → header.name = name) ∧
    ∀ (again : Nat) (address size pointer storedSize flags : UInt32),
      (ofValues header.name again address size pointer storedSize flags).name = header.name := by
  simp only [ofValues, nameOfRaw_rawOfName]
  refine ⟨⟨Utf8.held 8 name.toList, Utf8.longest_held 8 name.toList,
    Utf8.decode_terminated 8 name.toList⟩, ?_, ?_⟩
  · intro hnul hfits
    exact (Utf8.decode_terminated_of_fits hnul hfits).trans String.ofList_toList
  · intros
    exact Utf8.decode_terminated_again 8 name.toList

/-- A name of eight bytes, the last two of which are one character, is kept. With one more character
in front of it that character is cut, and U+FFFD, which has three bytes, is cut in its turn. -/
theorem name_ofValues_cutName :
    '\x00' ∉ "sect\u00e9\u00e9".toList ∧ (Utf8.encode "sect\u00e9\u00e9").length ≤ 8 ∧
      (ofValues "sect\u00e9\u00e9" 1 0 0 0 0 0).name = "sect\u00e9\u00e9" ∧
      (ofValues "secti\u00e9\u00e9" 1 0 0 0 0 0).name = "secti\u00e9\ufffd" ∧
      (ofValues "secti\u00e9\ufffd" 2 0 0 0 0 0).name = "secti\u00e9\ufffd" := by
  have hnul : '\x00' ∉ "sect\u00e9\u00e9".toList := by decide
  have hfits : (Utf8.encode "sect\u00e9\u00e9").length ≤ 8 := by decide
  have hcut : (ofValues "secti\u00e9\u00e9" 1 0 0 0 0 0).name = "secti\u00e9\ufffd" := by decide
  have hagain := (name_ofValues "secti\u00e9\u00e9" 1 0 0 0 0 0).2.2 2 0 0 0 0 0
  rw [hcut] at hagain
  exact ⟨hnul, hfits, (name_ofValues _ 1 0 0 0 0 0).2.1 hnul hfits, hcut, hagain⟩

end SectionHeader

end PeImage
