import PeImage.Proofs.Checked.CursorRun
import PeImage.Proofs.Text.Splitting
import PeImage.Proofs.Text.Utf16

/-!
# Counted strings one behind the other

A counted string says itself where it ends, so nothing in its units ends it: a NUL is a unit like
any other, and so is a surrogate that has no partner. The cursor passes two bytes for the count and
two for each unit, whatever the text has become by then. Texts that were written one behind the
other are therefore read back one by one, and the last one ends where the bytes do.
-/

namespace PeImage

/-- The units of a counted string are there if the bytes have room for the count and for as many
units. -/
theorem Utf16.countedUnits?_of_inside {bytes : Bytes} {offset : Nat}
    (h : offset + (2 + 2 * (bytes.u16 offset).toNat) ≤ bytes.size) :
    ∃ units, countedUnits? bytes offset = some units ∧ units.length = (bytes.u16 offset).toNat := by
  have hcount : bytes.u16? offset = some (bytes.u16 offset) := if_pos (by omega)
  refine ⟨(bytes.wordsAt (offset + 2) 2 (bytes.u16 offset).toNat).map UInt16.ofNat, ?_, ?_⟩
  · rw [countedUnits?, hcount, Option.bind_eq_bind, Option.bind_some, if_pos (by omega)]
  · rw [List.length_map, Bytes.length_wordsAt, Bytes.wordCount]
    omega

/-- There are no units where the count or one of the units is cut off. -/
theorem Utf16.countedUnits?_of_cut {bytes : Bytes} {offset : Nat}
    (h : bytes.size < offset + (2 + 2 * (bytes.u16 offset).toNat)) :
    countedUnits? bytes offset = none := by
  rw [countedUnits?, Bytes.u16?]
  by_cases hcount : offset + 2 ≤ bytes.size
  · rw [if_pos hcount, Option.bind_eq_bind, Option.bind_some, if_neg (by omega)]
  · rw [if_neg hcount]
    rfl

namespace Cursor

/-- A counted string is read by its units, and the cursor passes them and their count. -/
theorem wideText_of_units {cursor : Cursor} {units : List UInt16}
    (h : Utf16.countedUnits? cursor.data cursor.position = some units) :
    cursor.wideText = .ok (Utf16.text units,
      { cursor with position := cursor.position + (2 + 2 * units.length) }) := by
  rw [wideText, h]

/-- A counted text that stands at the cursor is read, and the cursor is behind it. -/
theorem wideText_of_rest {cursor : Cursor} {found : String} {behind : List UInt8}
    (hcount : (Utf16.encode found).length ≤ 0xFFFF)
    (hrest : cursor.rest = Utf16.countedOctets (Utf16.encode found) ++ behind) :
    cursor.wideText = .ok (found, { cursor with position :=
      cursor.position + (Utf16.countedOctets (Utf16.encode found)).length }) := by
  have hstored : cursor.data.Stores cursor.position (Utf16.countedOctets (Utf16.encode found)) :=
    ⟨behind, hrest.symm⟩
  have hunits := (Utf16.countedUnits?_eq_some ..).mpr ⟨Nat.lt_succ_of_le hcount, hstored⟩
  rw [wideText_of_units hunits, Utf16.text_encode, Utf16.length_countedOctets]

/-- A counted string that is read answers the request for it. -/
theorem step_of_wideText {cursor next : Cursor} {found : String}
    (h : cursor.wideText = .ok (found, next)) :
    cursor.step .wideText = (.ok (.text found), next) := by
  rw [step, perform, h]
  rfl

/-- Counted texts that stand behind the cursor are read one by one, up to the end of the bytes. -/
theorem run_wideTexts {texts : List String}
    (hcount : ∀ text ∈ texts, (Utf16.encode text).length ≤ 0xFFFF) (cursor : Cursor)
    (hinside : cursor.position ≤ cursor.data.size)
    (hrest : cursor.rest = texts.flatMap fun text => Utf16.countedOctets (Utf16.encode text)) :
    (cursor.run (texts.map fun _ => .wideText)).map Prod.fst = texts.map (.ok <| .text ·) ∧
      cursor.reached (texts.map fun _ => .wideText) =
        { cursor with position := cursor.data.size } := by
  induction texts generalizing cursor with
  | nil => exact ⟨rfl, eq_end_of_rest hinside hrest⟩
  | cons text texts ih =>
    rw [List.flatMap_cons] at hrest
    have hstep := step_of_wideText (wideText_of_rest (hcount text List.mem_cons_self) hrest)
    -- The next text stands right behind the units.
    have hbehind := ih (fun other hother => hcount other (List.mem_cons_of_mem _ hother))
      { cursor with position :=
        cursor.position + (Utf16.countedOctets (Utf16.encode text)).length } ?_ ?_
    · simp only [List.map_cons, run, reached, List.foldl_cons, hstep]
      exact ⟨congrArg _ hbehind.1, hbehind.2⟩
    · have hlength := cursor.length_rest
      rw [hrest, List.length_append, remaining] at hlength
      dsimp only
      omega
    · rw [rest] at hrest ⊢
      dsimp only
      rw [← List.drop_drop, hrest, List.drop_left]

/-- Counted strings lose nothing of a text. Texts of at most 65535 units that stand one behind the
other are read back in order, and the cursor ends at the end of the bytes. And whatever the bytes
are, a counted string is read exactly if there are bytes left for its count and for as many units:
the cursor passes just these, and of the units the surrogates without a partner, and no others, are
replaced by one U+FFFD each. A cursor that is moved in place, over the count and then unit by unit,
reads the same, and goes back where the units are cut off. -/
theorem wideText_reads_back :
    (∀ texts : List String, (∀ text ∈ texts, (Utf16.encode text).length ≤ 0xFFFF) →
      let buffer : Bytes :=
        .ofOctets (texts.flatMap fun text => Utf16.countedOctets (Utf16.encode text))
      ((ofBytes buffer).run (texts.map fun _ => .wideText)).map Prod.fst =
          texts.map (.ok <| .text ·) ∧
        (ofBytes buffer).reached (texts.map fun _ => .wideText) = ⟨buffer, buffer.size⟩) ∧
    (∀ cursor : Cursor,
      let count := (cursor.data.u16 cursor.position).toNat
      (2 + 2 * count ≤ cursor.remaining →
        ∃ units found, units.length = count ∧
          cursor.data.Stores cursor.position (Utf16.countedOctets units) ∧
          cursor.wideText =
            .ok (found, { cursor with position := cursor.position + (2 + 2 * count) }) ∧
          Utf16.encode found = Utf16.repaired units) ∧
      (cursor.remaining < 2 + 2 * count → cursor.wideText = .error .outOfBounds)) ∧
    ∀ cursor : Cursor, cursor.data.size ≤ Limits.largest →
      Checked.Move.wideText cursor = Checked.Move.settled cursor cursor.wideText := by
  refine ⟨fun texts hcount => ?_, fun cursor => ⟨fun hleft => ?_, fun hcut => ?_⟩,
    fun cursor hsize => Checked.Move.wideText_eq hsize⟩
  · exact run_wideTexts hcount _ (Nat.zero_le _) (List.drop_zero.trans (Bytes.octets_ofOctets _))
  · have hinside : cursor.position + (2 + 2 * (cursor.data.u16 cursor.position).toNat) ≤
        cursor.data.size := by
      rw [remaining] at hleft
      omega
    obtain ⟨units, hunits, hlength⟩ := Utf16.countedUnits?_of_inside hinside
    obtain ⟨_, hstored⟩ := (Utf16.countedUnits?_eq_some ..).mp hunits
    refine ⟨units, Utf16.text units, hlength, hstored, ?_, Utf16.encode_text units⟩
    rw [wideText_of_units hunits, hlength]
  · rw [wideText, Utf16.countedUnits?_of_cut (by rw [remaining] at hcut; omega)]

/-- A counted string of a low surrogate, a high one and a pair, with a byte behind it. -/
def strayUnits : Bytes :=
  .ofOctets (Utf16.countedOctets [0xDC00, 0xD800, 0xD834, 0xDD1E] ++ [0x61])

/-- A NUL and a character of two units are read back. Of four surrogates the first two are replaced,
and the byte behind them is no counted string, also for a cursor that is moved in place. -/
theorem wideText_reads_back_strayUnits :
    (∀ text ∈ ["A\x00", "𝄞"], (Utf16.encode text).length ≤ 0xFFFF) ∧
      ((ofBytes (.ofOctets [2, 0, 0x41, 0, 0, 0, 2, 0, 0x34, 0xD8, 0x1E, 0xDD])).run
        [.wideText, .wideText]).map Prod.fst = [.ok (.text "A\x00"), .ok (.text "𝄞")] ∧
      (∃ found, (ofBytes strayUnits).wideText = .ok (found, ⟨strayUnits, 10⟩) ∧
        Utf16.encode found = [0xFFFD, 0xFFFD, 0xD834, 0xDD1E]) ∧
      strayUnits.size ≤ Limits.largest ∧
      Checked.Move.wideText ⟨strayUnits, 10⟩ =
        .error (.fault .outOfBounds) ⟨strayUnits, 10⟩ := by
  have hcount : ∀ text ∈ ["A\x00", "𝄞"], (Utf16.encode text).length ≤ 0xFFFF := by decide
  have hsize : strayUnits.size ≤ Limits.largest := by decide
  obtain ⟨hreadBack, hread, hmoved⟩ := wideText_reads_back
  obtain ⟨units, found, hlength, hstored, hfound, hrepaired⟩ :=
    (hread (ofBytes strayUnits)).1 (by decide)
  have hunits : units = [0xDC00, 0xD800, 0xD834, 0xDD1E] := by
    have hcounted := (Utf16.countedUnits?_eq_some ..).mpr ⟨by rw [hlength]; decide, hstored⟩
    exact Option.some.inj (hcounted.symm.trans (by decide))
  have hcut : (Cursor.mk strayUnits 10).wideText = .error .outOfBounds :=
    (hread ⟨strayUnits, 10⟩).2 (by decide)
  rw [hunits] at hrepaired
  refine ⟨hcount, (hreadBack _ hcount).1, ⟨found, hfound, hrepaired.trans (by decide)⟩, hsize, ?_⟩
  rw [hmoved ⟨strayUnits, 10⟩ hsize, hcut]
  rfl

end Cursor

end PeImage
