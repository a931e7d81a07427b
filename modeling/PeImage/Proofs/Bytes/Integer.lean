import PeImage.Bytes.Integer
import PeImage.Proofs.Bytes.Progress

/-!
# Integers are read back from their bytes

Writing and reading are inverse for every format: the values that a format holds are exactly those
that come back from the bytes they are written as, and bytes of the right count come back from the
value they are read as. A negative value is written as the number that it is congruent to, and the
sign is found again because the values of a format are the balanced remainders.

Reading at an offset therefore gives a value exactly where the bytes of that value stand.
-/

namespace PeImage.IntFormat

instance (format : IntFormat) (value : Int) : Decidable (format.Holds value) :=
  inferInstanceAs (Decidable (if format.isSigned then _ ∧ _ else _ ∧ _))

/-- The count of values of a format is even, so half of them can be negative. -/
theorem range_even (format : IntFormat) : format.range % 2 = 0 := by
  cases format <;> rfl

/-- A format has values. -/
theorem range_pos (format : IntFormat) : 0 < format.range := by
  cases format <;> decide

/-- Bytes of the width of a format stand for a number below the count of its values. -/
theorem toNat_lt_range {format : IntFormat} {octets : List UInt8}
    (h : octets.length = format.width) : LittleEndian.toNat octets < format.range := by
  rw [range, ← h]
  exact LittleEndian.toNat_lt octets

/-- The number that the bytes of a value stand for is congruent to it. -/
theorem toNat_toOctets (format : IntFormat) (value : Int) :
    (LittleEndian.toNat (format.toOctets value) : Int) = value % format.range := by
  have hpos : (0 : Int) < format.range := Int.natCast_pos.mpr format.range_pos
  have hnonneg := Int.emod_nonneg value (Int.ne_of_gt hpos)
  have hlt := Int.emod_lt_of_pos value hpos
  have hfits : (value % format.range).toNat < format.range := by omega
  rw [toOctets, LittleEndian.toNat_ofNat, ← range, Nat.mod_eq_of_lt hfits,
    Int.toNat_of_nonneg hnonneg]

/-- Bytes of the width of a format stand for a value that the format holds. -/
theorem holds_ofOctets {format : IntFormat} {octets : List UInt8}
    (h : octets.length = format.width) : format.Holds (format.ofOctets octets) := by
  have hlt := toNat_lt_range h
  unfold Holds ofOctets
  split
  · have heven := format.range_even
    have hlow := Int.le_bmod (x := LittleEndian.toNat octets) format.range_pos
    have hhigh := Int.bmod_lt (x := LittleEndian.toNat octets) format.range_pos
    dsimp only
    omega
  · dsimp only
    omega

/-- A value comes back from the bytes it is written as exactly if its format holds it. -/
theorem ofOctets_toOctets {format : IntFormat} {value : Int} :
    format.ofOctets (format.toOctets value) = value ↔ format.Holds value := by
  constructor
  · intro h
    rw [← h]
    exact holds_ofOctets (length_toOctets format value)
  · unfold Holds ofOctets
    dsimp only
    rw [toNat_toOctets]
    split
    · rintro ⟨hlow, hhigh⟩
      rw [Int.emod_bmod]
      exact Int.bmod_eq_of_le (by omega) (by omega)
    · rintro ⟨hlow, hhigh⟩
      exact Int.emod_eq_of_lt hlow hhigh

/-- Bytes of the width of a format come back from the value they are read as. -/
theorem toOctets_ofOctets {format : IntFormat} {octets : List UInt8}
    (h : octets.length = format.width) : format.toOctets (format.ofOctets octets) = octets := by
  have hlt := toNat_lt_range h
  have hcongruent : format.ofOctets octets % format.range = LittleEndian.toNat octets := by
    unfold ofOctets
    split
    · rw [Int.bmod_emod]
      exact Int.emod_eq_of_lt (Int.natCast_nonneg _) (Int.ofNat_lt.mpr hlt)
    · exact Int.emod_eq_of_lt (Int.natCast_nonneg _) (Int.ofNat_lt.mpr hlt)
  rw [toOctets, hcongruent, Int.toNat_natCast, ← h, LittleEndian.ofNat_toNat]

/-- A value is read at an offset exactly where its bytes stand. -/
theorem readAt?_eq_some {format : IntFormat} {bytes : Bytes} {offset stop : Nat} {value : Int} :
    format.readAt? bytes offset = some (value, stop) ↔
      format.Holds value ∧ bytes.Stores offset (format.toOctets value) ∧
        offset + format.width = stop := by
  have hlength : (bytes.octetsAt offset format.width).length =
      min format.width (bytes.size - offset) := by
    rw [Bytes.octetsAt_eq, List.length_take, List.length_drop, Bytes.length_octets]
  rw [readAt?, Bytes.stores_iff_octetsAt, length_toOctets, Option.ite_none_right_eq_some,
    Option.some.injEq, Prod.mk.injEq]
  constructor
  · rintro ⟨hinside, rfl, rfl⟩
    have hwhole : (bytes.octetsAt offset format.width).length = format.width := by omega
    exact ⟨holds_ofOctets hwhole, (toOctets_ofOctets hwhole).symm, rfl⟩
  · rintro ⟨hholds, hstored, rfl⟩
    have hwidth := format.width_pos
    rw [hstored, length_toOctets] at hlength
    rw [hstored]
    exact ⟨by omega, ofOctets_toOctets.mpr hholds, rfl⟩

/-- Nothing is read at an offset exactly where a byte is missing. -/
theorem readAt?_eq_none {format : IntFormat} {bytes : Bytes} {offset : Nat} :
    format.readAt? bytes offset = none ↔ bytes.size < offset + format.width := by
  rw [readAt?, ite_eq_right_iff]
  simp

end PeImage.IntFormat
