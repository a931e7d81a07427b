import PeImage.ImportTable
import PeImage.Proofs.Bytes.Words

/-!
# Stored import descriptors

A descriptor is a record of five words. The list of them ends before the first record that has no
byte but zero, or with the last whole record of the directory, and it is read up to a limit.
-/

namespace PeImage

/-- Tests that agree on all values have the same passing start. -/
theorem takeWhile_congr {α : Type} {test other : α → Bool} {values : List α}
    (h : ∀ value ∈ values, test value = other value) :
    values.takeWhile test = values.takeWhile other := by
  induction values with
  | nil => rfl
  | cons value rest ih =>
    rw [List.takeWhile_cons, List.takeWhile_cons, h value List.mem_cons_self,
      ih fun value hvalue => h value (List.mem_cons_of_mem _ hvalue)]

/-- A number is zero when all of its bytes are. -/
theorem LittleEndian.eq_replicate_of_toNat {octets : List UInt8} (h : toNat octets = 0) :
    octets = List.replicate octets.length 0 := by
  induction octets with
  | nil => rfl
  | cons octet rest ih =>
    rw [toNat] at h
    obtain rfl : octet = 0 := UInt8.toNat_inj.mp (by simp only [UInt8.toNat_zero]; omega)
    rw [List.length_cons, List.replicate_succ, ← ih (by omega)]

/-- A word is zero exactly when its four bytes are. -/
theorem LittleEndian.word32Of_eq_zero {octets : List UInt8} {place : Nat}
    (h : place + 4 ≤ octets.length) :
    word32Of octets place = 0 ↔ (octets.drop place).take 4 = List.replicate 4 0 := by
  have hlength : ((octets.drop place).take 4).length = 4 := by
    rw [List.length_take, List.length_drop]
    omega
  have hlt := toNat_lt ((octets.drop place).take 4)
  rw [hlength] at hlt
  apply Iff.intro
  · intro hzero
    have hvalue := congrArg UInt32.toNat hzero
    rw [word32Of, UInt32.toNat_ofNat_of_lt' hlt] at hvalue
    have hall := eq_replicate_of_toNat hvalue
    rwa [hlength] at hall
  · intro hall
    rw [word32Of, hall]
    decide

namespace ImportDescriptor

/-- The descriptor of five words in its bytes. -/
def ofOctets (octets : List UInt8) : ImportDescriptor where
  originalFirstThunk := LittleEndian.word32Of octets 0
  timeDateStamp := LittleEndian.word32Of octets 4
  forwarderChain := LittleEndian.word32Of octets 8
  nameRva := LittleEndian.word32Of octets 12
  firstThunk := LittleEndian.word32Of octets 16

/-- The descriptors of a directory: the whole records of 20 bytes before the first that has no byte
but zero. -/
def stored (data : Bytes) : List ImportDescriptor :=
  ((records 20 data.octets).takeWhile fun record => record ≠ List.replicate 20 0).map ofOctets

/-- The bytes of a descriptor give the one that ends the list exactly when all of them are zero. -/
theorem ofOctets_eq_zero {octets : List UInt8} (h : octets.length = 20) :
    ofOctets octets = zero ↔ octets = List.replicate 20 0 := by
  have hgrow (place n : Nat) (hplace : place + 4 ≤ octets.length)
      (hword : LittleEndian.word32Of octets place = 0)
      (hrest : octets.drop (place + 4) = List.replicate n 0) :
      octets.drop place = List.replicate (4 + n) 0 := by
    rw [← List.take_append_drop 4 (octets.drop place), List.drop_drop, hrest,
      (LittleEndian.word32Of_eq_zero hplace).mp hword, List.replicate_append_replicate]
  apply Iff.intro
  · intro hzero
    simp only [ofOctets, zero, mk.injEq] at hzero
    obtain ⟨h0, h4, h8, h12, h16⟩ := hzero
    have hend : octets.drop 20 = List.replicate 0 0 := List.drop_eq_nil_of_le (Nat.le_of_eq h)
    exact hgrow 0 16 (by omega) h0 (hgrow 4 12 (by omega) h4 (hgrow 8 8 (by omega) h8
      (hgrow 12 4 (by omega) h12 (hgrow 16 0 (by omega) h16 hend))))
  · intro h
    subst h
    decide

/-- The descriptor at a place of the directory is that of the record there. -/
theorem readAt_eq_ofOctets (data : Bytes) (i : Nat) :
    readAt data (20 * i) = ofOctets ((data.octets.drop (20 * i)).take 20) := by
  have hword (place : Nat) (hplace : place + 4 ≤ 20) :
      data.u32 (20 * i + place) =
        LittleEndian.word32Of ((data.octets.drop (20 * i)).take 20) place := by
    rw [LittleEndian.word32Of, List.drop_take, List.take_take, List.drop_drop,
      Nat.min_eq_left (by omega), Bytes.u32_eq_word32Of, LittleEndian.word32Of]
  rw [readAt, ofOctets, ← hword 0 (by decide), ← hword 4 (by decide), ← hword 8 (by decide),
    ← hword 12 (by decide), ← hword 16 (by decide)]
  rfl

/-- The descriptors that are read are the stored ones, cut to the limit. -/
theorem list_eq_take (data : Bytes) (limit : Nat) : list data limit = (stored data).take limit := by
  have hrecords : (List.range' 0 (min (data.size / byteSize) limit)).map
      (fun i => readAt data (byteSize * i)) =
        ((records 20 data.octets).map ofOctets).take limit := by
    rw [byteSize, records, List.map_map, ← List.map_take, List.take_range, ← List.range_eq_range',
      Bytes.length_octets, Nat.min_comm]
    exact List.map_congr_left fun i _ => readAt_eq_ofOctets data i
  rw [list, runWhile_eq, hrecords, ← List.take_takeWhile, List.takeWhile_map, stored]
  congr 2
  refine takeWhile_congr fun record hrecord => ?_
  rw [Function.comp_apply, decide_eq_decide, ne_eq,
    ofOctets_eq_zero (length_of_mem_records hrecord)]

/-- A smaller limit keeps the first descriptors. -/
theorem take_list (data : Bytes) {n limit : Nat} (hn : n ≤ limit) :
    (list data limit).take n = list data n := by
  rw [list_eq_take, list_eq_take, List.take_take, Nat.min_eq_left hn]

/-- No more descriptors are read than whole ones fit into the directory. -/
theorem length_list_le (data : Bytes) (limit : Nat) :
    (list data limit).length ≤ data.size / byteSize := by
  have hstored : (stored data).length ≤ data.size / byteSize := by
    rw [stored, List.length_map, ← Bytes.length_octets, ← length_records byteSize data.octets]
    exact (List.takeWhile_sublist _).length_le
  rw [list_eq_take]
  exact Nat.le_trans (List.length_take_le' _ _) hstored

end ImportDescriptor

end PeImage
