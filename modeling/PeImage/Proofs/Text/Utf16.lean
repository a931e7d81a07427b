import PeImage.Text.Utf16

/-!
# Reading UTF-16 back

The units of a character are read as that character, so the units of a text are read as the text.
Of arbitrary units all are kept but the surrogates without a partner: writing the text that was read
gives the units again, with U+FFFD in the place of each of those.

No unit is a high surrogate and a low one at once, so whether a surrogate has its partner is seen
from the units right beside it, and no pair depends on where another one ends.
-/

namespace PeImage.Utf16

/-- The unit in front of a position, if there is one. -/
def unitBefore? (units : List UInt16) : (position : Nat) → Option UInt16
  | 0 => none
  | position + 1 => units[position]?

/-- The unit at a position is a surrogate without its partner: a high one that no low one follows,
or a low one that no high one precedes. -/
def Unpaired (units : List UInt16) (position : Nat) : Prop :=
  units[position]?.any isHigh ∧ ¬ units[position + 1]?.any isLow ∨
    units[position]?.any isLow ∧ ¬ (unitBefore? units position).any isHigh

instance (units : List UInt16) (position : Nat) : Decidable (Unpaired units position) :=
  inferInstanceAs (Decidable (_ ∨ _))

/-- The units with U+FFFD in the place of each surrogate without its partner. -/
def repaired (units : List UInt16) : List UInt16 :=
  units.mapIdx fun position unit => if Unpaired units position then 0xFFFD else unit

theorem isHigh_iff (unit : UInt16) : isHigh unit ↔ 0xD800 ≤ unit.toNat ∧ unit.toNat < 0xDC00 := by
  simp [isHigh, UInt16.le_iff_toNat_le, UInt16.lt_iff_toNat_lt]

theorem isLow_iff (unit : UInt16) : isLow unit ↔ 0xDC00 ≤ unit.toNat ∧ unit.toNat < 0xE000 := by
  simp [isLow, UInt16.le_iff_toNat_le, UInt16.lt_iff_toNat_lt]

/-- No unit is a surrogate of both kinds. -/
theorem isLow_eq_false_of_isHigh {unit : UInt16} (h : isHigh unit) : isLow unit = false := by
  rw [isHigh_iff] at h
  rw [← Bool.not_eq_true, isLow_iff]
  omega

/-- The number of a character is the one that it was made of. -/
theorem toNat_ofNat {n : Nat} (h : n.isValidChar) : (Char.ofNat n).toNat = n := by
  rw [Char.ofNat, dif_pos h]
  rfl

/-- A character of the basic plane is one unit, and not a surrogate. -/
theorem encodeChar_of_lt {char : Char} (h : char.toNat < 0x10000) :
    ∃ unit, encodeChar char = [unit] ∧ isHigh unit = false ∧ isLow unit = false ∧
      single unit = char := by
  have hvalid : char.toNat < 0xD800 ∨ 0xDFFF < char.toNat ∧ char.toNat < 0x110000 := char.valid
  have hvalue : (UInt16.ofNat char.toNat).toNat = char.toNat := UInt16.toNat_ofNat_of_lt' h
  have hhigh : isHigh (UInt16.ofNat char.toNat) = false := by
    rw [← Bool.not_eq_true, isHigh_iff, hvalue]
    omega
  have hlow : isLow (UInt16.ofNat char.toNat) = false := by
    rw [← Bool.not_eq_true, isLow_iff, hvalue]
    omega
  refine ⟨_, if_pos h, hhigh, hlow, ?_⟩
  rw [single, hhigh, hlow, hvalue, Char.ofNat_toNat]
  rfl

/-- A character outside the basic plane is a pair of surrogates. -/
theorem encodeChar_of_le {char : Char} (h : 0x10000 ≤ char.toNat) :
    ∃ high low, encodeChar char = [high, low] ∧ isHigh high ∧ isLow low ∧ pair high low = char := by
  have hvalid : char.toNat < 0xD800 ∨ 0xDFFF < char.toNat ∧ char.toNat < 0x110000 := char.valid
  have hhigh : (UInt16.ofNat (0xD800 + (char.toNat - 0x10000) / 0x400)).toNat =
      0xD800 + (char.toNat - 0x10000) / 0x400 :=
    UInt16.toNat_ofNat_of_lt' (show _ < 0x10000 by omega)
  have hlow : (UInt16.ofNat (0xDC00 + (char.toNat - 0x10000) % 0x400)).toNat =
      0xDC00 + (char.toNat - 0x10000) % 0x400 :=
    UInt16.toNat_ofNat_of_lt' (show _ < 0x10000 by omega)
  refine ⟨_, _, if_neg (Nat.not_lt_of_le h), ?_, ?_, ?_⟩
  · rw [isHigh_iff, hhigh]
    omega
  · rw [isLow_iff, hlow]
    omega
  · have hbits : 0x10000 + (0xD800 + (char.toNat - 0x10000) / 0x400 - 0xD800) * 0x400 +
        (0xDC00 + (char.toNat - 0x10000) % 0x400 - 0xDC00) = char.toNat := by omega
    rw [pair, hhigh, hlow, hbits, Char.ofNat_toNat]

/-- A unit that does not start a pair is read by itself. -/
theorem decode_cons {unit : UInt16} {rest : List UInt16}
    (hopen : ¬ (isHigh unit ∧ rest.head?.any isLow)) :
    decode (unit :: rest) = single unit :: decode rest := by
  cases rest with
  | nil => rfl
  | cons next rest =>
    have hpair : ¬ (isHigh unit && isLow next) = true := by simpa using hopen
    rw [decode, if_neg hpair]

/-- The units of a character are read as the character. -/
theorem decode_encodeChar (char : Char) (rest : List UInt16) :
    decode (encodeChar char ++ rest) = char :: decode rest := by
  rcases Nat.lt_or_ge char.toNat 0x10000 with hbasic | hwide
  · obtain ⟨unit, hunits, hhigh, _, hchar⟩ := encodeChar_of_lt hbasic
    rw [hunits, List.singleton_append, decode_cons (by simp [hhigh]), hchar]
  · obtain ⟨high, low, hunits, hhigh, hlow, hchar⟩ := encodeChar_of_le hwide
    rw [hunits, List.cons_append, List.singleton_append, decode, if_pos (by simp [hhigh, hlow]),
      hchar]

/-- The units of characters one behind the other are read as these characters. -/
theorem decode_flatMap (chars : List Char) : decode (chars.flatMap encodeChar) = chars := by
  induction chars with
  | nil => rfl
  | cons char rest ih => rw [List.flatMap_cons, decode_encodeChar, ih]

/-- The units of a text are read as the text. -/
theorem text_encode (found : String) : text (encode found) = found := by
  rw [text, encode, decode_flatMap, String.ofList_toList]

/-- What a unit is read as by itself is written as the unit, unless that is a surrogate. -/
theorem encodeChar_single (unit : UInt16) :
    encodeChar (single unit) = [if isHigh unit || isLow unit then 0xFFFD else unit] := by
  rw [single]
  by_cases hsurrogate : (isHigh unit || isLow unit) = true
  · rw [if_pos hsurrogate, if_pos hsurrogate]
    rfl
  · have hvalid : Nat.isValidChar unit.toNat := by
      rw [Bool.or_eq_true, isHigh_iff, isLow_iff] at hsurrogate
      have hword := unit.toNat_lt
      unfold Nat.isValidChar
      omega
    rw [if_neg hsurrogate, if_neg hsurrogate, encodeChar, toNat_ofNat hvalid,
      if_pos unit.toNat_lt, UInt16.ofNat_toNat]

/-- The character of a pair of surrogates is written as the pair. -/
theorem encodeChar_pair {high low : UInt16} (hhigh : isHigh high) (hlow : isLow low) :
    encodeChar (pair high low) = [high, low] := by
  rw [isHigh_iff] at hhigh
  rw [isLow_iff] at hlow
  have hvalue : (pair high low).toNat =
      0x10000 + (high.toNat - 0xD800) * 0x400 + (low.toNat - 0xDC00) :=
    toNat_ofNat (by unfold Nat.isValidChar; omega)
  have hfirst : 0xD800 + ((pair high low).toNat - 0x10000) / 0x400 = high.toNat := by omega
  have hsecond : 0xDC00 + ((pair high low).toNat - 0x10000) % 0x400 = low.toNat := by omega
  rw [encodeChar, if_neg (by omega), hfirst, hsecond, UInt16.ofNat_toNat, UInt16.ofNat_toNat]

/-- Behind a unit that does not start a pair, the unit in front makes no difference. -/
theorem unpaired_cons_succ {unit : UInt16} {rest : List UInt16}
    (hopen : ¬ (isHigh unit ∧ rest.head?.any isLow)) (position : Nat) :
    Unpaired (unit :: rest) (position + 1) ↔ Unpaired rest position := by
  cases position with
  | zero =>
    have hfirst : rest[0]?.any isLow → isHigh unit = false := by
      rw [← List.head?_eq_getElem?]
      exact fun hlow => Bool.eq_false_iff.mpr fun hhigh => hopen ⟨hhigh, hlow⟩
    simp only [Unpaired, unitBefore?, List.getElem?_cons_succ, List.getElem?_cons_zero,
      Option.any_some, Option.any_none]
    refine or_congr_right (and_congr_right fun hlow => ?_)
    rw [hfirst hlow]
  | succ position => rfl

/-- A unit that does not start a pair is replaced if it is a surrogate. -/
theorem repaired_cons {unit : UInt16} {rest : List UInt16}
    (hopen : ¬ (isHigh unit ∧ rest.head?.any isLow)) :
    repaired (unit :: rest) =
      (if isHigh unit || isLow unit then 0xFFFD else unit) :: repaired rest := by
  have hfirst : Unpaired (unit :: rest) 0 ↔ (isHigh unit || isLow unit) = true := by
    rw [List.head?_eq_getElem?] at hopen
    simp only [Unpaired, unitBefore?, List.getElem?_cons_zero, List.getElem?_cons_succ,
      Option.any_some, Option.any_none, Bool.false_eq_true, not_false_eq_true, and_true,
      Bool.or_eq_true]
    exact or_congr_left (and_iff_left_of_imp fun hhigh hlow => hopen ⟨hhigh, hlow⟩)
  rw [repaired, List.mapIdx_cons]
  simp only [hfirst, unpaired_cons_succ hopen]
  rfl

/-- A pair of surrogates is kept. -/
theorem repaired_pair {high low : UInt16} (hhigh : isHigh high) (hlow : isLow low)
    (rest : List UInt16) : repaired (high :: low :: rest) = high :: low :: repaired rest := by
  have hnot : isHigh low = false :=
    Bool.eq_false_iff.mpr fun h => Bool.false_ne_true ((isLow_eq_false_of_isHigh h).symm.trans hlow)
  have hfirst : ¬ Unpaired (high :: low :: rest) 0 := by
    simp [Unpaired, hlow, isLow_eq_false_of_isHigh hhigh]
  have hsecond : ¬ Unpaired (high :: low :: rest) 1 := by
    simp [Unpaired, unitBefore?, hhigh, hnot]
  -- The low surrogate starts no pair, so behind it nothing is seen of the two.
  have hopen : ¬ (isHigh low ∧ rest.head?.any isLow) := by simp [hnot]
  have hbehind (position : Nat) :
      Unpaired (high :: low :: rest) (position + 2) ↔ Unpaired rest position :=
    unpaired_cons_succ hopen position
  rw [repaired, List.mapIdx_cons, List.mapIdx_cons, if_neg hfirst, if_neg hsecond]
  simp only [hbehind]
  rfl

/-- Writing a text that was read gives its units again, but for the surrogates without a partner. -/
theorem encode_text (units : List UInt16) : encode (text units) = repaired units := by
  rw [encode, text, String.toList_ofList]
  fun_induction decode units with
  | case1 => rfl
  | case2 unit =>
    rw [List.flatMap_singleton, encodeChar_single, repaired_cons (by simp)]
    rfl
  | case3 unit next rest hpair ih =>
    obtain ⟨hhigh, hlow⟩ := (Bool.and_eq_true ..).mp hpair
    rw [List.flatMap_cons, encodeChar_pair hhigh hlow, ih, repaired_pair hhigh hlow]
    rfl
  | case4 unit next rest hpair ih =>
    have hopen : ¬ (isHigh unit ∧ (next :: rest).head?.any isLow) := by simpa using hpair
    rw [List.flatMap_cons, encodeChar_single, ih, repaired_cons hopen]
    rfl

end PeImage.Utf16
