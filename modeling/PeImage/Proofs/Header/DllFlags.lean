import Mathlib.Data.List.Dedup
import Mathlib.Data.List.Perm.Basic
import Mathlib.Data.Nat.Bitwise
import PeImage.Header.DllFlag

/-!
# Words and flags

Every flag stands for one bit of a word, and every bit has a flag. So a word is known from its
flags: the word of some flags has these and no others, in whatever order and however often they are
given, and a word is the word of its own flags, the reserved ones included.
-/

namespace PeImage.DllFlag

/-- The number of the bit that a flag stands for. -/
def bit (flag : DllFlag) : Nat := all.idxOf flag

/-- The mask of a flag has its bit and no other. -/
theorem toNat_mask (flag : DllFlag) : flag.mask.toNat = 2 ^ flag.bit := by
  cases flag <;> rfl

/-- Two flags do not stand for the same bit. -/
theorem bit_inj {flag other : DllFlag} : flag.bit = other.bit ↔ flag = other :=
  List.idxOf_inj (mem_all flag)

/-- Every bit of a word has a flag. -/
theorem exists_bit_eq {i : Nat} (h : i < 16) : ∃ flag : DllFlag, flag.bit = i := by
  have hnodup : all.Nodup := by decide
  exact ⟨all.get ⟨i, h⟩, hnodup.idxOf_getElem i h⟩

/-- Flags of the same mask are the same. -/
theorem mask_injective : Function.Injective mask := by
  intro flag other h
  have hbits := congrArg UInt16.toNat h
  rw [toNat_mask, toNat_mask] at hbits
  exact bit_inj.mp (Nat.pow_right_injective (Nat.le_refl 2) hbits)

/-- A word has the flags whose masks meet it. -/
theorem mem_ofWord (word : UInt16) (flag : DllFlag) :
    flag ∈ ofWord word ↔ word &&& flag.mask ≠ 0 := by
  simp only [ofWord, List.mem_map, List.mem_filter, decide_eq_true_iff]
  constructor
  · rintro ⟨row, ⟨hrow, hmeets⟩, rfl⟩
    rwa [mask_of_mem_rows row hrow]
  · intro hmeets
    exact ⟨(flag.mask, flag), ⟨(mem_rows _ _).mpr rfl, hmeets⟩, rfl⟩

/-- A word has the flags of its bits. -/
theorem mem_ofWord_iff_testBit (word : UInt16) (flag : DllFlag) :
    flag ∈ ofWord word ↔ word.toNat.testBit flag.bit := by
  rw [mem_ofWord, ne_eq, ← UInt16.toNat_inj, UInt16.toNat_and, toNat_mask, Nat.and_two_pow]
  cases word.toNat.testBit flag.bit <;> simp

/-- The flags of a word stand in bit order, each of them once. -/
theorem ofWord_pairwise (word : UInt16) : (ofWord word).Pairwise (·.mask < ·.mask) := by
  have hrows : rows.Pairwise fun row other => row.2.mask < other.2.mask := by decide
  exact List.pairwise_map.mpr (hrows.filter _)

/-- The word of some flags has the bits of these flags. -/
theorem testBit_toWord (flags : List DllFlag) (flag : DllFlag) :
    (toWord flags).toNat.testBit flag.bit ↔ flag ∈ flags := by
  induction flags with
  | nil => simp
  | cons other rest ih =>
    rw [toWord_cons, UInt16.toNat_or, toNat_mask, Nat.testBit_or, Nat.testBit_two_pow,
      Bool.or_eq_true, decide_eq_true_iff, bit_inj, ih, List.mem_cons, eq_comm]

/-- The flags of the word of some flags are these flags. -/
theorem mem_ofWord_toWord (flags : List DllFlag) (flag : DllFlag) :
    flag ∈ ofWord (toWord flags) ↔ flag ∈ flags := by
  rw [mem_ofWord_iff_testBit, testBit_toWord]

/-- Words that have the same flags are the same. -/
theorem ext_ofWord {word other : UInt16} (h : ∀ flag, flag ∈ ofWord word ↔ flag ∈ ofWord other) :
    word = other := by
  refine UInt16.toNat_inj.mp (Nat.eq_of_testBit_eq fun i => ?_)
  by_cases hi : i < 16
  · obtain ⟨flag, rfl⟩ := exists_bit_eq hi
    have hflag := h flag
    rw [mem_ofWord_iff_testBit, mem_ofWord_iff_testBit] at hflag
    exact Bool.eq_iff_iff.mpr hflag
  · have hpast (word : UInt16) : word.toNat.testBit i = false :=
      Nat.testBit_lt_two_pow (Nat.lt_of_lt_of_le word.toNat_lt
        (Nat.pow_le_pow_right (by decide) (Nat.le_of_not_lt hi)))
    rw [hpast, hpast]

/-- The word of flags in two parts has the bits of both. -/
theorem toWord_append (flags others : List DllFlag) :
    toWord (flags ++ others) = toWord flags ||| toWord others := by
  induction flags with
  | nil => exact UInt16.zero_or.symm
  | cons flag rest ih => rw [List.cons_append, toWord_cons, ih, toWord_cons, UInt16.or_assoc]

/-- Sorting puts flags into bit order. -/
theorem mergeSort_pairwise (flags : List DllFlag) :
    (flags.mergeSort (·.mask ≤ ·.mask)).Pairwise (·.mask ≤ ·.mask) := by
  refine (List.pairwise_mergeSort ?_ ?_ flags).imp of_decide_eq_true
  · intro flag other third hab hbc
    exact decide_eq_true (UInt16.le_trans (of_decide_eq_true hab) (of_decide_eq_true hbc))
  · intro flag other
    rw [Bool.or_eq_true, decide_eq_true_iff, decide_eq_true_iff]
    exact UInt16.le_total flag.mask other.mask

/-- Flags in bit order, each of them once, are the distinct flags of any list that has the same
ones, sorted by their bits. -/
theorem eq_mergeSort_dedup {sorted flags : List DllFlag}
    (hsorted : sorted.Pairwise (·.mask < ·.mask)) (hmem : ∀ flag, flag ∈ sorted ↔ flag ∈ flags) :
    sorted = flags.dedup.mergeSort (·.mask ≤ ·.mask) := by
  have hnodup : sorted.Nodup := by
    rw [List.nodup_iff_pairwise_ne]
    exact hsorted.imp fun hlt heq => UInt16.ne_of_lt hlt (congrArg mask heq)
  have hperm : sorted.Perm flags.dedup :=
    (List.perm_ext_iff_of_nodup hnodup flags.nodup_dedup).mpr fun flag => by
      rw [hmem, List.mem_dedup]
  exact (hperm.trans (List.mergeSort_perm _ _).symm).eq_of_pairwise
    (fun _ _ _ _ hab hba => mask_injective (UInt16.le_antisymm hab hba))
    (hsorted.imp UInt16.le_of_lt) (mergeSort_pairwise _)

/-- Words and flags are two forms of the same set. The flags of the word of some flags are these
flags, each of them once and in bit order, so words of flags are the same exactly if the flags are,
whatever their order and number; the word of two lists one behind the other has the bits of both
words. And every word is the word of its flags. -/
theorem words_eq_flags (flags others : List DllFlag) (word : UInt16) :
    ofWord (toWord flags) = flags.dedup.mergeSort (·.mask ≤ ·.mask) ∧
      (toWord flags = toWord others ↔ ∀ flag, flag ∈ flags ↔ flag ∈ others) ∧
      toWord (flags ++ others) = toWord flags ||| toWord others ∧
      toWord (ofWord word) = word := by
  have hsame : toWord flags = toWord others ↔ ∀ flag, flag ∈ flags ↔ flag ∈ others := by
    constructor
    · intro h flag
      rw [← mem_ofWord_toWord flags, h, mem_ofWord_toWord]
    · intro h
      refine ext_ofWord fun flag => ?_
      rw [mem_ofWord_toWord, mem_ofWord_toWord, h]
  exact ⟨eq_mergeSort_dedup (ofWord_pairwise _) (mem_ofWord_toWord flags), hsame,
    toWord_append flags others, ext_ofWord (mem_ofWord_toWord (ofWord word))⟩

end PeImage.DllFlag
