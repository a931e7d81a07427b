import Mathlib.Data.List.TakeWhile
import PeImage.Proofs.Text.Utf8
import PeImage.Text.Terminated

/-!
# Texts cut at a byte

A terminated string may hold only a part of the bytes of a text. The characters whose bytes are all
in it are read as they are. If it ends inside a character, the bytes of that character that are
left, one or more, leave the character open and are read as one fault. U+FFFD, which stands for the
fault in the text that is read, may not fit into the string in its turn. Then it is the character
that is cut, and stands for itself, so cutting a text twice is cutting it once.
-/

namespace PeImage

/-- Where there is no NUL, no byte ends a string. -/
theorem decide_ne_zero {octets : List UInt8} (hnul : 0 ∉ octets) :
    ∀ byte ∈ octets, decide (byte ≠ 0) := by
  intro byte hbyte
  exact decide_eq_true fun hzero => hnul (hzero ▸ hbyte)

/-- Bytes without a NUL that fit belong to the string, which goes on behind them. -/
theorem terminated_append {cap : Nat} {front : List UInt8} (hnul : 0 ∉ front)
    (hfits : front.length ≤ cap) (behind : List UInt8) :
    terminated cap (front ++ behind) = front ++ terminated (cap - front.length) behind := by
  rw [terminated, List.take_append, List.take_of_length_le hfits,
    List.takeWhile_append_of_pos (decide_ne_zero hnul), terminated]

/-- Bytes without a NUL up to the cap end there. -/
theorem terminated_of_notMem {cap : Nat} {octets : List UInt8} (hnul : 0 ∉ octets.take cap) :
    terminated cap octets = octets.take cap :=
  List.takeWhile_eq_self_iff.mpr (decide_ne_zero hnul)

namespace Utf8

/-- The longest start of characters that has no NUL and no more bytes than a cap. -/
structure Longest (cap : Nat) (chars held : List Char) : Prop where
  start : held <+: chars
  nul_notMem : '\x00' ∉ held
  fits : (octetsOf held).length ≤ cap
  longest : ∀ other, other <+: chars → '\x00' ∉ other → (octetsOf other).length ≤ cap →
    other <+: held

/-- A cut behind some of the bytes of characters falls inside one of them: a byte of it at least is
before the cut, and a byte of it at least is behind. -/
def Splits (cut : Nat) (chars : List Char) : Prop :=
  ∃ k < chars.length,
    (octetsOf (chars.take k)).length < cut ∧ cut < (octetsOf (chars.take (k + 1))).length

instance (cut : Nat) (chars : List Char) : Decidable (Splits cut chars) :=
  inferInstanceAs (Decidable (∃ k < chars.length, _ ∧ _))

/-- A terminated string breaks a character off: no NUL is among the bytes up to its cap, and the cap
falls inside a character. -/
def Breaks (cap : Nat) (chars : List Char) : Prop :=
  0 ∉ (octetsOf chars).take cap ∧ Splits cap chars

instance (cap : Nat) (chars : List Char) : Decidable (Breaks cap chars) :=
  inferInstanceAs (Decidable (_ ∧ _))

/-- The characters before the first NUL whose bytes are all before a cut. -/
def held : (cut : Nat) → List Char → List Char
  | _, [] => []
  | cut, char :: rest =>
    if char ≠ '\x00' ∧ char.utf8Size ≤ cut then char :: held (cut - char.utf8Size) rest else []

/-- What a cut leaves whole is the longest start that fits. -/
theorem longest_held (cut : Nat) (chars : List Char) : Longest cut chars (held cut chars) := by
  induction chars generalizing cut with
  | nil => exact ⟨List.nil_prefix, List.not_mem_nil, Nat.zero_le _, fun _ h _ _ => h⟩
  | cons char rest ih =>
    rw [held]
    by_cases h : char ≠ '\x00' ∧ char.utf8Size ≤ cut
    · obtain ⟨hstart, hnul, hfits, hlongest⟩ := ih (cut - char.utf8Size)
      rw [if_pos h]
      refine ⟨List.cons_prefix_cons.mpr ⟨rfl, hstart⟩,
        List.not_mem_cons_of_ne_of_not_mem h.1.symm hnul, ?_, ?_⟩
      · rw [length_octetsOf_cons]
        omega
      · rintro (_ | ⟨first, others⟩) hother hnulOther hfitsOther
        · exact List.nil_prefix
        obtain ⟨rfl, hothers⟩ := List.cons_prefix_cons.mp hother
        rw [length_octetsOf_cons] at hfitsOther
        exact List.cons_prefix_cons.mpr ⟨rfl,
          hlongest others hothers (List.not_mem_of_not_mem_cons hnulOther) (by omega)⟩
    · rw [if_neg h]
      refine ⟨List.nil_prefix, List.not_mem_nil, Nat.zero_le _, ?_⟩
      rintro (_ | ⟨first, others⟩) hother hnulOther hfitsOther
      · exact List.nil_prefix
      obtain ⟨rfl, -⟩ := List.cons_prefix_cons.mp hother
      rw [length_octetsOf_cons] at hfitsOther
      exact absurd ⟨(List.ne_of_not_mem_cons hnulOther).symm, by omega⟩ h

/-- A cut behind a character falls inside one of the later ones. -/
theorem splits_cons_of_le {cut : Nat} {char : Char} (h : char.utf8Size ≤ cut) (rest : List Char) :
    Splits cut (char :: rest) ↔ Splits (cut - char.utf8Size) rest := by
  constructor
  · rintro ⟨k, hk, hfrom, hto⟩
    cases k with
    | zero =>
      simp only [List.take_succ_cons, List.take_zero, length_octetsOf_cons, octetsOf_nil,
        List.length_nil] at hto
      omega
    | succ k =>
      simp only [List.take_succ_cons, length_octetsOf_cons] at hfrom hto
      exact ⟨k, Nat.lt_of_succ_lt_succ hk, by omega, by omega⟩
  · rintro ⟨k, hk, hfrom, hto⟩
    refine ⟨k + 1, Nat.succ_lt_succ hk, ?_, ?_⟩
    · rw [List.take_succ_cons, length_octetsOf_cons]
      omega
    · rw [List.take_succ_cons, length_octetsOf_cons]
      omega

/-- A cut before the end of the first character falls inside it, unless it is before all bytes. -/
theorem splits_cons_of_lt {cut : Nat} {char : Char} (h : cut < char.utf8Size) (rest : List Char) :
    Splits cut (char :: rest) ↔ 0 < cut := by
  constructor
  · rintro ⟨k, _, hfrom, _⟩
    exact Nat.zero_lt_of_lt hfrom
  · intro hpos
    exact ⟨0, Nat.zero_lt_succ _, hpos, by simpa using h⟩

/-- A byte completes something or leaves a character open. -/
theorem feed_progress {state : Option Pending} {byte : UInt8} (h : (feed state byte).1 = []) :
    (feed state byte).2 ≠ none := by
  have houtcome (step : Step) (hnone : step.outcome.1 = []) : step.outcome.2 ≠ none := by
    cases step with
    | whole char => cases hnone
    | more pending => exact Option.some_ne_none pending
    | refused => cases hnone
  cases state with
  | none => exact houtcome (first byte) h
  | some pending =>
    rw [feed] at h ⊢
    cases hstep : pending.next byte with
    | refused => rw [hstep] at h; cases h
    | whole char => rw [hstep] at h; cases h
    | more further => exact Option.some_ne_none further

/-- Bytes, or a character that is open, give something. -/
theorem scan_ne_nil {state : Option Pending} {octets : List UInt8}
    (h : state ≠ none ∨ octets ≠ []) : scan state octets ≠ [] := by
  induction octets generalizing state with
  | nil =>
    cases state with
    | none => simp at h
    | some pending => exact List.cons_ne_nil _ _
  | cons byte rest ih =>
    rw [scan]
    intro hnil
    obtain ⟨hfed, hrest⟩ := List.append_eq_nil_iff.mp hnil
    exact ih (.inl (feed_progress hfed)) hrest

/-- A start of bytes that give one character in all is one fault: no byte of it completes anything,
and the character is still open behind it. -/
theorem scan_start {state : Option Pending} {char : Char} {start rest : List UInt8}
    (hopen : state ≠ none ∨ start ≠ []) (hrest : rest ≠ [])
    (h : scan state (start ++ rest) = [some char]) : scan state start = [none] := by
  induction start generalizing state with
  | nil =>
    cases state with
    | none => simp at hopen
    | some pending => rfl
  | cons byte others ih =>
    rw [List.cons_append, scan] at h
    -- What comes behind the byte gives something, so the byte itself does not give the character.
    have hbehind : scan (feed state byte).2 (others ++ rest) ≠ [] :=
      scan_ne_nil (.inr fun hnil => hrest (List.append_eq_nil_iff.mp hnil).2)
    obtain ⟨hfed, hread⟩ | ⟨-, hnone⟩ := List.append_eq_singleton_iff.mp h
    · rw [scan, hfed, List.nil_append, ih (.inl (feed_progress hfed)) hread]
    · exact absurd hnone hbehind

/-- A part of the bytes of a character is one fault. -/
theorem scan_take_utf8EncodeChar {char : Char} {cut : Nat} (hpos : 0 < cut)
    (h : cut < char.utf8Size) : scan none ((String.utf8EncodeChar char).take cut) = [none] := by
  rw [← String.length_utf8EncodeChar] at h
  have hwhole : scan none (String.utf8EncodeChar char) = [some char] := by
    have hread := scan_utf8EncodeChar char []
    rwa [List.append_nil] at hread
  refine scan_start (.inr ?_) ?_ ((congrArg _ (List.take_append_drop cut _)).trans hwhole)
  · rw [← List.length_pos_iff, List.length_take]
    omega
  · rw [← List.length_pos_iff, List.length_drop]
    omega

section Cons

variable {cap : Nat} {char : Char} (rest : List Char)

/-- Nothing is broken off behind a NUL. -/
theorem not_breaks_nul : ¬ Breaks cap ('\x00' :: rest) := by
  rintro ⟨hfree, k, _, hfrom, _⟩
  obtain ⟨n, rfl⟩ := Nat.exists_eq_add_one_of_ne_zero (Nat.ne_zero_of_lt hfrom)
  exact hfree List.mem_cons_self

/-- No byte is read from a NUL on. -/
theorem terminated_nul : terminated cap (octetsOf ('\x00' :: rest)) = [] := by
  cases cap <;> rfl

section Whole

variable (hnul : char ≠ '\x00') (hfits : char.utf8Size ≤ cap)

include hnul hfits

/-- A whole character is not what is broken off. -/
theorem breaks_cons_of_le :
    Breaks cap (char :: rest) ↔ Breaks (cap - char.utf8Size) rest := by
  have hlength := String.length_utf8EncodeChar char
  rw [Breaks, Breaks, splits_cons_of_le hfits, octetsOf_cons, List.take_append,
    List.take_of_length_le (hlength ▸ hfits), List.mem_append, not_or,
    and_iff_right (zero_notMem_utf8EncodeChar hnul), hlength]

/-- The bytes of a whole character belong to a string. -/
theorem terminated_cons_of_le : terminated cap (octetsOf (char :: rest)) =
    String.utf8EncodeChar char ++ terminated (cap - char.utf8Size) (octetsOf rest) := by
  have hlength := String.length_utf8EncodeChar char
  rw [octetsOf_cons, terminated_append (zero_notMem_utf8EncodeChar hnul) (hlength ▸ hfits), hlength]

end Whole

section Part

variable (hnul : char ≠ '\x00') (hcut : cap < char.utf8Size)

include hcut

/-- A cap inside the first character leaves bytes of this character only. -/
theorem take_octetsOf_cons :
    (octetsOf (char :: rest)).take cap = (String.utf8EncodeChar char).take cap := by
  have hlength : cap ≤ (String.utf8EncodeChar char).length := by
    rw [String.length_utf8EncodeChar]
    exact Nat.le_of_lt hcut
  rw [octetsOf_cons, List.take_append_of_le_length hlength]

include hnul

/-- None of these bytes is a NUL. -/
theorem zero_notMem_take_octetsOf_cons : 0 ∉ (octetsOf (char :: rest)).take cap := by
  rw [take_octetsOf_cons rest hcut]
  exact fun hzero => zero_notMem_utf8EncodeChar hnul (List.mem_of_mem_take hzero)

/-- The first character is broken off if any byte of it is read. -/
theorem breaks_cons_of_lt : Breaks cap (char :: rest) ↔ 0 < cap := by
  rw [Breaks, splits_cons_of_lt hcut]
  exact and_iff_right (zero_notMem_take_octetsOf_cons rest hnul hcut)

/-- The string is the part of the first character. -/
theorem terminated_cons_of_lt :
    terminated cap (octetsOf (char :: rest)) = (String.utf8EncodeChar char).take cap := by
  rw [terminated_of_notMem (zero_notMem_take_octetsOf_cons rest hnul hcut),
    take_octetsOf_cons rest hcut]

end Part

end Cons

/-- The bytes of characters, cut at a NUL or at a cap, are read as the characters that are whole,
with a fault behind them if one is broken off. -/
theorem scan_terminated (cap : Nat) (chars : List Char) :
    scan none (terminated cap (octetsOf chars)) =
      (held cap chars).map some ++ if Breaks cap chars then [none] else [] := by
  induction chars generalizing cap with
  | nil => simp [terminated, scan, held, Breaks, Splits]
  | cons char rest ih =>
    by_cases hnul : char = '\x00'
    · subst hnul
      rw [terminated_nul, held, if_neg (fun h => h.1 rfl), if_neg (not_breaks_nul rest)]
      rfl
    rcases Nat.lt_or_ge cap char.utf8Size with hcut | hfits
    · rw [terminated_cons_of_lt rest hnul hcut, held, if_neg (fun h => Nat.not_le_of_lt hcut h.2)]
      simp only [breaks_cons_of_lt rest hnul hcut]
      by_cases hpos : 0 < cap
      · rw [scan_take_utf8EncodeChar hpos hcut, if_pos hpos]
        rfl
      · rw [Nat.eq_zero_of_not_pos hpos]
        rfl
    · have hheld : held cap (char :: rest) = char :: held (cap - char.utf8Size) rest :=
        if_pos ⟨hnul, hfits⟩
      rw [terminated_cons_of_le rest hnul hfits, scan_utf8EncodeChar, ih, hheld]
      simp only [breaks_cons_of_le rest hnul hfits, List.map_cons, List.cons_append]

/-- The characters that are read of the bytes of characters. -/
theorem decode_terminated (cap : Nat) (chars : List Char) :
    decode (terminated cap (octetsOf chars)) =
      String.ofList (held cap chars ++ if Breaks cap chars then [replacement] else []) := by
  rw [decode, scan_terminated, List.map_append, List.map_map]
  congr 2
  · exact List.map_id _
  · split <;> rfl

/-- Characters without a NUL that fit are read as they are. -/
theorem decode_terminated_of_fits {cap : Nat} {chars : List Char} (hnul : '\x00' ∉ chars)
    (hfits : (octetsOf chars).length ≤ cap) :
    decode (terminated cap (octetsOf chars)) = String.ofList chars := by
  have htake : (octetsOf chars).take cap = octetsOf chars := List.take_of_length_le hfits
  have hfree : 0 ∉ (octetsOf chars).take cap := htake.symm ▸ zero_notMem_octetsOf hnul
  rw [terminated_of_notMem hfree, htake, decode_octetsOf]

/-- A start of characters has no more bytes than they have. -/
theorem length_octetsOf_le {start chars : List Char} (h : start <+: chars) :
    (octetsOf start).length ≤ (octetsOf chars).length := by
  obtain ⟨rest, rfl⟩ := h
  rw [octetsOf_append, List.length_append]
  exact Nat.le_add_right _ _

/-- A cut inside a character is not right behind another one. -/
theorem Splits.length_ne {cut : Nat} {chars start : List Char} (h : Splits cut chars)
    (hstart : start <+: chars) : (octetsOf start).length ≠ cut := by
  obtain ⟨k, hk, hfrom, hto⟩ := h
  rcases Nat.lt_or_ge k start.length with hpast | hbefore
  · have hsplit : chars.take (k + 1) <+: start :=
      List.prefix_of_prefix_length_le (List.take_prefix _ _) hstart
        (Nat.le_trans (List.length_take_le _ _) hpast)
    have hlength := length_octetsOf_le hsplit
    omega
  · have hwhole : start <+: chars.take k :=
      List.prefix_of_prefix_length_le hstart (List.take_prefix _ _)
        (by rwa [List.length_take_of_le (Nat.le_of_lt hk)])
    have hlength := length_octetsOf_le hwhole
    omega

/-- A part of U+FFFD is read as U+FFFD. -/
theorem decode_terminated_replacement {cap : Nat} (hpos : 0 < cap) :
    decode (terminated cap (octetsOf [replacement])) = String.ofList [replacement] := by
  have hnul : replacement ≠ '\x00' := by decide
  rcases Nat.lt_or_ge cap replacement.utf8Size with hcut | hfits
  · rw [terminated_cons_of_lt [] hnul hcut, decode, scan_take_utf8EncodeChar hpos hcut]
    rfl
  · exact decode_terminated_of_fits (by decide) hfits

/-- Characters that are read of a cut string are read again if they are cut in the same way. -/
theorem decode_terminated_again (cap : Nat) (chars : List Char) :
    decode (terminated cap (encode (decode (terminated cap (octetsOf chars))))) =
      decode (terminated cap (octetsOf chars)) := by
  obtain ⟨hstart, hnul, hfits, -⟩ := longest_held cap chars
  rw [decode_terminated, encode, String.toList_ofList, ← octetsOf]
  by_cases hbreaks : Breaks cap chars
  · rw [if_pos hbreaks, octetsOf_append, terminated_append (zero_notMem_octetsOf hnul) hfits,
      decode_octetsOf_append, decode_terminated_replacement, String.ofList_append]
    exact Nat.sub_pos_of_lt (Nat.lt_of_le_of_ne hfits (hbreaks.2.length_ne hstart))
  · rw [if_neg hbreaks, List.append_nil]
    exact decode_terminated_of_fits hnul hfits

end Utf8

end PeImage
