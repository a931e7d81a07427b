import PeImage.Text.Utf8

/-!
# Reading UTF-8 back

The bytes of a character are read as that character and nothing else, so the lossy reading of the
bytes of a text is the text, and no fault stands in it. Of arbitrary bytes every character takes
one at least: a text that was read is no longer than its bytes.
-/

namespace PeImage.Utf8

/-- A byte that completes a character is followed by what is read behind it. -/
theorem scan_whole {state : Option Pending} {byte : UInt8} {char : Char} (rest : List UInt8)
    (h : feed state byte = ([some char], none)) :
    scan state (byte :: rest) = some char :: scan none rest := by
  rw [scan, h]
  rfl

/-- A byte that a character goes on with gives nothing by itself. -/
theorem scan_more {state : Option Pending} {byte : UInt8} {pending : Pending} (rest : List UInt8)
    (h : feed state byte = ([], some pending)) :
    scan state (byte :: rest) = scan (some pending) rest := by
  rw [scan, h]
  rfl

/-- The byte that a started character goes on with, for the lowest six bits of a number. -/
def tailByte (n : Nat) : UInt8 := UInt8.ofNat (n % 0x40 + 0x80)

theorem toNat_tailByte (n : Nat) : (tailByte n).toNat = n % 0x40 + 0x80 :=
  UInt8.toNat_ofNat_of_lt' (show n % 0x40 + 0x80 < 0x100 by omega)

/-- A later byte of a character is from the upper half, where no character is a byte. -/
theorem tailByte_mem (n : Nat) : 0x80 ≤ tailByte n ∧ tailByte n ≤ 0xBF := by
  rw [UInt8.le_iff_toNat_le, UInt8.le_iff_toNat_le, toNat_tailByte]
  change 0x80 ≤ _ ∧ _ ≤ 0xBF
  omega

/-- The same where the range is narrowed under conditions that the byte meets. -/
theorem tailByte_mem_ite {n : Nat} {p q : Prop} [Decidable p] [Decidable q] {least greatest : UInt8}
    (hleast : p → least.toNat ≤ n % 0x40 + 0x80) (hgreatest : q → n % 0x40 + 0x80 ≤ greatest.toNat) :
    (if p then least else 0x80) ≤ tailByte n ∧ tailByte n ≤ if q then greatest else 0xBF := by
  rw [← toNat_tailByte, ← UInt8.le_iff_toNat_le] at hleast hgreatest
  constructor
  · split
    · exact hleast ‹_›
    · exact (tailByte_mem n).1
  · split
    · exact hgreatest ‹_›
    · exact (tailByte_mem n).2

section Later

variable {least greatest : UInt8} {n : Nat} (h : least ≤ tailByte n ∧ tailByte n ≤ greatest)

include h

/-- The last byte of a character completes it. -/
theorem feed_last :
    feed (some ⟨0, least, greatest, n / 0x40⟩) (tailByte n) = ([some (Char.ofNat n)], none) := by
  have hbits : n / 0x40 * 0x40 + (n % 0x40 + 0x80 - 0x80) = n := by omega
  simp only [feed, Pending.next, if_pos h, toNat_tailByte, hbits, Step.outcome]

/-- A byte before the last one adds its bits and leaves the character open. -/
theorem feed_middle (further : Nat) :
    feed (some ⟨further + 1, least, greatest, n / 0x40⟩) (tailByte n) =
      ([], some ⟨further, 0x80, 0xBF, n⟩) := by
  have hbits : n / 0x40 * 0x40 + (n % 0x40 + 0x80 - 0x80) = n := by omega
  simp only [feed, Pending.next, if_pos h, toNat_tailByte, hbits, Step.outcome]

end Later

/-- A byte of the lower half is a character. -/
theorem feed_first_one {n : Nat} (h : n < 0x80) :
    feed none (UInt8.ofNat n) = ([some (Char.ofNat n)], none) := by
  have hvalue : (UInt8.ofNat n).toNat = n := UInt8.toNat_ofNat_of_lt' (Nat.lt_trans h (by decide))
  simp only [feed, first, hvalue, if_pos h, Step.outcome]

/-- The first byte of a character of two bytes. -/
theorem feed_first_two : ∀ n < 0x20, 2 ≤ n →
    feed none (UInt8.ofNat (n % 0x20 + 0xC0)) = ([], some ⟨0, 0x80, 0xBF, n⟩) := by
  decide

/-- The first byte of a character of three bytes. It bounds the second byte, so that there is no
shorter form of the character and the character is no surrogate. -/
theorem feed_first_three : ∀ n < 0x10,
    feed none (UInt8.ofNat (n % 0x10 + 0xE0)) =
      ([], some ⟨1, if n = 0 then 0xA0 else 0x80, if n = 0xD then 0x9F else 0xBF, n⟩) := by
  decide

/-- The first byte of a character of four bytes. It bounds the second byte, so that there is no
shorter form of the character and the character is not past the last one. -/
theorem feed_first_four : ∀ n < 5,
    feed none (UInt8.ofNat (n % 8 + 0xF0)) =
      ([], some ⟨2, if n = 0 then 0x90 else 0x80, if n = 4 then 0x8F else 0xBF, n⟩) := by
  decide

/-- A character of two bytes is read as it is. -/
theorem scan_two {n : Nat} (hmore : 0x7F < n) (hfits : n ≤ 0x7FF) (rest : List UInt8) :
    scan none (UInt8.ofNat (n / 0x40 % 0x20 + 0xC0) :: tailByte n :: rest) =
      some (Char.ofNat n) :: scan none rest := by
  rw [scan_more _ (feed_first_two (n / 0x40) (by omega) (by omega)),
    scan_whole _ (feed_last (tailByte_mem n))]

/-- A character of three bytes is read as it is. -/
theorem scan_three {n : Nat} (hmore : 0x7FF < n) (hfits : n ≤ 0xFFFF)
    (hvalid : n < 0xD800 ∨ 0xDFFF < n) (rest : List UInt8) :
    scan none (UInt8.ofNat (n / 0x1000 % 0x10 + 0xE0) :: tailByte (n / 0x40) :: tailByte n :: rest) =
      some (Char.ofNat n) :: scan none rest := by
  have hsplit : n / 0x1000 = n / 0x40 / 0x40 := (Nat.div_div_eq_div_mul n 0x40 0x40).symm
  have hsecond : (if n / 0x1000 = 0 then 0xA0 else 0x80) ≤ tailByte (n / 0x40) ∧
      tailByte (n / 0x40) ≤ if n / 0x1000 = 0xD then 0x9F else 0xBF :=
    tailByte_mem_ite (fun _ => show 0xA0 ≤ _ by omega) (fun _ => show _ ≤ 0x9F by omega)
  -- From here on the bits that are read so far have to be a quotient of those with the next byte.
  rw [scan_more _ (feed_first_three (n / 0x1000) (by omega))]
  rw [hsplit] at hsecond ⊢
  rw [scan_more _ (feed_middle hsecond 0), scan_whole _ (feed_last (tailByte_mem n))]

/-- A character of four bytes is read as it is. -/
theorem scan_four {n : Nat} (hmore : 0xFFFF < n) (hvalid : n < 0x110000) (rest : List UInt8) :
    scan none (UInt8.ofNat (n / 0x40000 % 8 + 0xF0) :: tailByte (n / 0x1000) ::
        tailByte (n / 0x40) :: tailByte n :: rest) =
      some (Char.ofNat n) :: scan none rest := by
  have hsplit : n / 0x1000 = n / 0x40 / 0x40 := (Nat.div_div_eq_div_mul n 0x40 0x40).symm
  have hsplitFirst : n / 0x40000 = n / 0x1000 / 0x40 := (Nat.div_div_eq_div_mul n 0x1000 0x40).symm
  have hsecond : (if n / 0x40000 = 0 then 0x90 else 0x80) ≤ tailByte (n / 0x1000) ∧
      tailByte (n / 0x1000) ≤ if n / 0x40000 = 4 then 0x8F else 0xBF :=
    tailByte_mem_ite (fun _ => show 0x90 ≤ _ by omega) (fun _ => show _ ≤ 0x8F by omega)
  rw [scan_more _ (feed_first_four (n / 0x40000) (by omega))]
  rw [hsplitFirst] at hsecond ⊢
  rw [scan_more _ (feed_middle hsecond 1), hsplit,
    scan_more _ (feed_middle (tailByte_mem (n / 0x40)) 0), scan_whole _ (feed_last (tailByte_mem n))]

/-- The bytes of a character by its number. -/
def charOctets (n : Nat) : List UInt8 :=
  if n ≤ 0x7F then [UInt8.ofNat n]
  else if n ≤ 0x7FF then [UInt8.ofNat (n / 0x40 % 0x20 + 0xC0), tailByte n]
  else if n ≤ 0xFFFF then
    [UInt8.ofNat (n / 0x1000 % 0x10 + 0xE0), tailByte (n / 0x40), tailByte n]
  else
    [UInt8.ofNat (n / 0x40000 % 8 + 0xF0), tailByte (n / 0x1000), tailByte (n / 0x40), tailByte n]

theorem utf8EncodeChar_eq (char : Char) : String.utf8EncodeChar char = charOctets char.toNat := rfl

/-- The bytes of a character are read as the character. -/
theorem scan_utf8EncodeChar (char : Char) (rest : List UInt8) :
    scan none (String.utf8EncodeChar char ++ rest) = some char :: scan none rest := by
  have hvalid : char.toNat < 0xD800 ∨ 0xDFFF < char.toNat ∧ char.toNat < 0x110000 := char.valid
  rw [utf8EncodeChar_eq, charOctets]
  conv =>
    rhs
    rw [← Char.ofNat_toNat char]
  -- A case for each number of bytes.
  split
  · exact scan_whole rest (feed_first_one (by omega))
  split
  · exact scan_two (by omega) (by omega) rest
  split
  · exact scan_three (by omega) (by omega) (by omega) rest
  · exact scan_four (by omega) (by omega) rest

/-- The bytes of characters one behind the other. -/
def octetsOf (chars : List Char) : List UInt8 := chars.flatMap String.utf8EncodeChar

@[simp] theorem octetsOf_nil : octetsOf [] = [] := rfl

theorem octetsOf_cons (char : Char) (rest : List Char) :
    octetsOf (char :: rest) = String.utf8EncodeChar char ++ octetsOf rest := List.flatMap_cons

theorem octetsOf_append (chars others : List Char) :
    octetsOf (chars ++ others) = octetsOf chars ++ octetsOf others := List.flatMap_append

@[simp] theorem length_octetsOf_cons (char : Char) (rest : List Char) :
    (octetsOf (char :: rest)).length = char.utf8Size + (octetsOf rest).length := by
  rw [octetsOf_cons, List.length_append, String.length_utf8EncodeChar]

/-- The bytes of characters are read as these characters, and then what is behind them. -/
theorem scan_octetsOf_append (chars : List Char) (behind : List UInt8) :
    scan none (octetsOf chars ++ behind) = chars.map some ++ scan none behind := by
  induction chars with
  | nil => rfl
  | cons char rest ih =>
    rw [octetsOf_cons, List.append_assoc, scan_utf8EncodeChar, ih, List.map_cons, List.cons_append]

/-- Characters stand in front of the text of the bytes behind theirs. -/
theorem decode_octetsOf_append (chars : List Char) (behind : List UInt8) :
    decode (octetsOf chars ++ behind) = String.ofList chars ++ decode behind := by
  have hread : (chars.map some).map (·.getD replacement) = chars := by
    simp [Function.comp_def]
  rw [decode, scan_octetsOf_append, List.map_append, hread, String.ofList_append, decode]

/-- The text of the bytes of characters consists of these characters. -/
theorem decode_octetsOf (chars : List Char) : decode (octetsOf chars) = String.ofList chars := by
  have hread := decode_octetsOf_append chars []
  rwa [List.append_nil, show decode [] = "" from rfl, String.append_empty] at hread

/-- The bytes of a text are read as the text. -/
theorem decode_encode (text : String) : decode (encode text) = text := by
  rw [encode, ← octetsOf, decode_octetsOf, String.ofList_toList]

/-- No byte of a character but the NUL is zero. -/
theorem zero_notMem_charOctets {n : Nat} (h : n ≠ 0) : 0 ∉ charOctets n := by
  have hbyte (value : Nat) (hpos : 0 < value) (hfits : value < 0x100) :
      (0 : UInt8) ≠ UInt8.ofNat value := by
    intro hzero
    have hvalue := congrArg UInt8.toNat hzero
    rw [UInt8.toNat_ofNat_of_lt' hfits] at hvalue
    exact Nat.ne_of_lt hpos hvalue
  have htail (value : Nat) : (0 : UInt8) ≠ tailByte value := hbyte _ (by omega) (by omega)
  unfold charOctets
  split
  · exact List.not_mem_cons_of_ne_of_not_mem (hbyte n (by omega) (by omega)) List.not_mem_nil
  have hlast : 0 ∉ [tailByte n] := by simp [htail]
  split
  · exact List.not_mem_cons_of_ne_of_not_mem (hbyte _ (by omega) (by omega)) hlast
  have hthird := List.not_mem_cons_of_ne_of_not_mem (htail (n / 0x40)) hlast
  split
  · exact List.not_mem_cons_of_ne_of_not_mem (hbyte _ (by omega) (by omega)) hthird
  have hsecond := List.not_mem_cons_of_ne_of_not_mem (htail (n / 0x1000)) hthird
  exact List.not_mem_cons_of_ne_of_not_mem (hbyte _ (by omega) (by omega)) hsecond

/-- A character other than the NUL has no zero byte. -/
theorem zero_notMem_utf8EncodeChar {char : Char} (h : char ≠ '\x00') :
    0 ∉ String.utf8EncodeChar char := by
  rw [utf8EncodeChar_eq]
  refine zero_notMem_charOctets fun hnul => h ?_
  rw [← Char.ofNat_toNat char, hnul]

/-- Characters other than the NUL have no zero byte. -/
theorem zero_notMem_octetsOf {chars : List Char} (h : '\x00' ∉ chars) : 0 ∉ octetsOf chars := by
  rw [octetsOf, List.mem_flatMap]
  rintro ⟨char, hchar, hzero⟩
  exact zero_notMem_utf8EncodeChar (fun hnul => h (hnul ▸ hchar)) hzero

/-- A text without NULs has no zero byte. -/
theorem zero_notMem_encode {text : String} (h : '\x00' ∉ text.toList) : 0 ∉ encode text :=
  zero_notMem_octetsOf h

/-- What a byte completes, and the character it leaves open, are no more than the byte and the
character that was open before it. -/
theorem length_feed_le (state : Option Pending) (byte : UInt8) :
    (feed state byte).1.length + (feed state byte).2.toList.length ≤ state.toList.length + 1 := by
  have houtcome (step : Step) : step.outcome.1.length + step.outcome.2.toList.length = 1 := by
    cases step <;> rfl
  cases state with
  | none => exact Nat.le_of_eq (houtcome (first byte))
  | some pending =>
    have hfirst := houtcome (first byte)
    have hnext := houtcome (pending.next byte)
    rw [feed]
    cases hstep : pending.next byte with
    -- The byte is read once more, as the first one of a character, behind the fault of the open one.
    | refused => simp; omega
    | whole char => simp [Step.outcome]
    | more further => simp [Step.outcome]

/-- Every character that is read takes a byte, unless it was open before. -/
theorem length_scan_le (state : Option Pending) (octets : List UInt8) :
    (scan state octets).length ≤ octets.length + state.toList.length := by
  induction octets generalizing state with
  | nil => cases state <;> simp [scan]
  | cons byte rest ih =>
    have hfeed := length_feed_le state byte
    have hrest := ih (feed state byte).2
    rw [scan, List.length_append, List.length_cons]
    omega

/-- A text that is read has no more characters than bytes. -/
theorem length_decode_le (octets : List UInt8) : (decode octets).length ≤ octets.length := by
  have hscan := length_scan_le none octets
  rw [decode, String.length_ofList, List.length_map]
  exact hscan

end PeImage.Utf8
