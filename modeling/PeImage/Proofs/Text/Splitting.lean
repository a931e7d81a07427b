import PeImage.Bytes.Cursor
import PeImage.Proofs.Text.Cap
import PeImage.Proofs.Text.Utf8

/-!
# Splitting bytes at their NULs

Where a terminated string ends is one number: the distance to the first NUL, the cap, or what is
left of the bytes, whichever is least. The cursor passes the bytes before that place and a NUL that
stands right at it. Texts that were written one behind the other, each with a NUL, are therefore
read back one by one: the cursor is always at the start of the next text, and after the last one at
the end of the bytes.
-/

namespace PeImage

/-- Texts one behind the other, each with a NUL behind it. Behind the last one the NUL may be
missing, unless that text has no byte. -/
inductive Utf8.Ended : List String → List UInt8 → Prop
  | nil : Ended [] []
  | last {text : String} (h : text ≠ "") : Ended [text] (encode text)
  | cons {text : String} {texts : List String} {octets : List UInt8} (h : Ended texts octets) :
      Ended (text :: texts) (encode text ++ 0 :: octets)

namespace Cursor

/-- The bytes from the cursor to the end. -/
def rest (cursor : Cursor) : List UInt8 := cursor.data.octets.drop cursor.position

/-- The length of the string at the cursor: the least of the distance to the first NUL, the cap and
the bytes that are left. -/
def textLength (cursor : Cursor) (cap : Nat) : Nat :=
  min (min (cursor.rest.idxOf 0) cap) cursor.remaining

@[simp] theorem length_rest (cursor : Cursor) : cursor.rest.length = cursor.remaining := by
  rw [rest, List.length_drop, Bytes.length_octets, remaining]

/-- The bytes of the string at the cursor. -/
theorem terminatedAt_eq_take (cursor : Cursor) (cap : Nat) :
    cursor.data.terminatedAt cursor.position cap = cursor.rest.take (cursor.textLength cap) := by
  rw [Bytes.terminatedAt_eq, ← rest, terminated_eq_take, textLength, ← length_rest,
    ← List.take_eq_take_min]

/-- A NUL is read some bytes on exactly where one stands there. -/
theorem nul_iff (cursor : Cursor) (k : Nat) :
    cursor.position + k < cursor.data.size ∧ cursor.data.u8 (cursor.position + k) = 0 ↔
      cursor.rest[k]? = some 0 := by
  rw [rest, List.getElem?_drop]
  by_cases hinside : cursor.position + k < cursor.data.octets.length
  · rw [List.getElem?_eq_getElem hinside, Option.some.injEq, Bytes.u8_eq_getElem _ _ hinside]
    exact and_iff_right hinside
  · rw [List.getElem?_eq_none (Nat.le_of_not_lt hinside)]
    exact iff_of_false (fun h => hinside h.1) nofun

/-- A string is read from a cursor that has a byte left. The cursor passes its bytes, and the byte
behind them if that is a NUL. -/
theorem text_of_hasMore {cursor : Cursor} (hmore : cursor.hasMore) (cap : Nat) :
    cursor.text cap = .ok (Utf8.decode (cursor.rest.take (cursor.textLength cap)),
      { cursor with position := cursor.position + cursor.textLength cap +
          if cursor.rest[cursor.textLength cap]? = some 0 then 1 else 0 }) := by
  have hlength : (cursor.rest.take (cursor.textLength cap)).length = cursor.textLength cap := by
    rw [List.length_take, length_rest, textLength]
    omega
  rw [text, if_pos hmore, terminatedAt_eq_take]
  dsimp only
  rw [hlength]
  simp only [nul_iff]
  by_cases hend : cursor.rest[cursor.textLength cap]? = some 0
  · rw [if_pos hend, if_pos hend]
  · rw [if_neg hend, if_neg hend, Nat.add_zero]

/-- A text without NULs that stands at the cursor is read, and the cursor is behind it and behind
the NUL that ends it. -/
theorem text_of_rest {cursor : Cursor} {found : String} {cap : Nat} {behind : List UInt8}
    (hnul : '\x00' ∉ found.toList) (hcap : (Utf8.encode found).length ≤ cap)
    (hmore : cursor.hasMore) (hrest : cursor.rest = Utf8.encode found ++ behind)
    (hbehind : behind.idxOf 0 = 0) :
    cursor.text cap = .ok (found, { cursor with position :=
      cursor.position + (Utf8.encode found).length +
        (if behind.head? = some 0 then 1 else 0) }) := by
  have hlength : cursor.textLength cap = (Utf8.encode found).length := by
    rw [textLength, ← length_rest, hrest, List.length_append,
      List.idxOf_append_of_notMem (Utf8.zero_notMem_encode hnul), hbehind]
    omega
  rw [text_of_hasMore hmore, hlength, hrest, List.take_left, Utf8.decode_encode,
    List.getElem?_append_right (Nat.le_refl _), Nat.sub_self, List.head?_eq_getElem?]

/-- The cursor that a list of requests leads to. -/
def reached (cursor : Cursor) (requests : List Request) : Cursor :=
  requests.foldl (fun before request => (before.step request).2) cursor

/-- A string that is read answers the request for it. -/
theorem step_of_text {cursor next : Cursor} {cap : Nat} {found : String}
    (h : cursor.text cap = .ok (found, next)) :
    cursor.step (.text cap) = (.ok (.text found), next) := by
  rw [step, perform, h]
  rfl

/-- A cursor that has no byte left is at the end. -/
theorem eq_end_of_rest {cursor : Cursor} (hinside : cursor.position ≤ cursor.data.size)
    (hrest : cursor.rest = []) : cursor = { cursor with position := cursor.data.size } := by
  have hlength := cursor.length_rest
  rw [hrest, List.length_nil, remaining] at hlength
  have hend : cursor.position = cursor.data.size := by omega
  exact congrArg (Cursor.mk cursor.data) hend

/-- A cursor in front of some bytes has more. -/
theorem hasMore_of_rest {cursor : Cursor} (hrest : cursor.rest ≠ []) : cursor.hasMore := by
  have hlength := List.length_pos_iff.mpr hrest
  rw [length_rest, remaining] at hlength
  exact decide_eq_true (by omega)

/-- Texts that stand behind the cursor are read one by one, up to the end of the bytes. -/
theorem run_texts {texts : List String} {octets : List UInt8} (h : Utf8.Ended texts octets)
    {cap : Nat} (hnul : ∀ text ∈ texts, '\x00' ∉ text.toList)
    (hcap : ∀ text ∈ texts, (Utf8.encode text).length ≤ cap) (cursor : Cursor)
    (hinside : cursor.position ≤ cursor.data.size) (hrest : cursor.rest = octets) :
    (cursor.run (texts.map fun _ => .text cap)).map Prod.fst = texts.map (.ok <| .text ·) ∧
      cursor.reached (texts.map fun _ => .text cap) =
        { cursor with position := cursor.data.size } := by
  induction h generalizing cursor with
  | nil => exact ⟨rfl, eq_end_of_rest hinside hrest⟩
  | @last text htext =>
    have hmore : cursor.hasMore := hasMore_of_rest fun hnone => htext (by
      rw [← Utf8.decode_encode text, ← hrest, hnone]
      rfl)
    have hlength := cursor.length_rest
    rw [hrest, remaining] at hlength
    have hend : cursor.position + (Utf8.encode text).length = cursor.data.size := by omega
    have hread := text_of_rest (hnul text List.mem_cons_self) (hcap text List.mem_cons_self) hmore
      (hrest.trans (List.append_nil _).symm) rfl
    rw [List.head?_nil, if_neg nofun, Nat.add_zero, hend] at hread
    have hstep := step_of_text hread
    simp [run, reached, hstep]
  | @cons text texts octets _ ih =>
    have hmore : cursor.hasMore := hasMore_of_rest (by simp [hrest])
    have hread := text_of_rest (hnul text List.mem_cons_self) (hcap text List.mem_cons_self) hmore
      hrest List.idxOf_cons_self
    rw [List.head?_cons, if_pos rfl] at hread
    have hstep := step_of_text hread
    -- The next text stands behind the NUL.
    have hbehind := ih (fun other hother => hnul other (List.mem_cons_of_mem _ hother))
      (fun other hother => hcap other (List.mem_cons_of_mem _ hother))
      { cursor with position := cursor.position + (Utf8.encode text).length + 1 } ?_ ?_
    · simp only [List.map_cons, run, reached, List.foldl_cons, hstep]
      exact ⟨congrArg _ hbehind.1, hbehind.2⟩
    · have hlength := cursor.length_rest
      rw [hrest, List.length_append, List.length_cons, remaining] at hlength
      dsimp only
      omega
    · rw [rest] at hrest ⊢
      dsimp only
      rw [Nat.add_assoc, ← List.drop_drop, hrest, List.drop_append]
      simp

/-- Terminated strings lose nothing of the bytes. Texts without NULs that stand one behind the other
are read back in order, with any cap that none of them exceeds; the cursor ends at the end of the
bytes, where no further string is read. And whatever the bytes are, a string that starts before
their end consists of the bytes before the first NUL, the cap or the end, whichever comes first; a
NUL is passed exactly if it stands right behind them, and the text has no more characters than the
cap. -/
theorem text_splits_at_nuls :
    (∀ (texts : List String) (buffer : Bytes) (cap : Nat), Utf8.Ended texts buffer.octets →
      (∀ text ∈ texts, '\x00' ∉ text.toList) →
      (∀ text ∈ texts, (Utf8.encode text).length ≤ cap) →
        ((ofBytes buffer).run (texts.map fun _ => .text cap)).map Prod.fst =
            texts.map (.ok <| .text ·) ∧
          (ofBytes buffer).reached (texts.map fun _ => .text cap) = ⟨buffer, buffer.size⟩ ∧
          ∀ further, text ⟨buffer, buffer.size⟩ further = .error .outOfBounds) ∧
    ∀ (cursor : Cursor) (cap : Nat), cursor.hasMore →
      cursor.text cap = .ok (Utf8.decode (cursor.rest.take (cursor.textLength cap)),
          { cursor with position := cursor.position + cursor.textLength cap +
              if cursor.rest[cursor.textLength cap]? = some 0 then 1 else 0 }) ∧
        (Utf8.decode (cursor.rest.take (cursor.textLength cap))).length ≤ cap := by
  constructor
  · intro texts buffer cap hended hnul hcap
    obtain ⟨hanswers, hreached⟩ :=
      run_texts hended hnul hcap (ofBytes buffer) (Nat.zero_le _) List.drop_zero
    refine ⟨hanswers, hreached, fun further => ?_⟩
    have hdone : ¬ (Cursor.mk buffer buffer.size).hasMore := by simp [hasMore]
    rw [text, if_neg hdone]
  · intro cursor cap hmore
    refine ⟨text_of_hasMore hmore cap, ?_⟩
    have hchars := Utf8.length_decode_le (cursor.rest.take (cursor.textLength cap))
    rw [List.length_take, textLength] at hchars
    rw [textLength]
    omega

/-- Three texts, the second of which has no byte and the last of which is not ended. -/
def threeTexts : Bytes := .ofOctets [0x61, 0x62, 0, 0, 0xC3, 0xA9]

/-- The three texts are read back with a cap that the longest of them reaches, and with a smaller
one the first is cut and its last byte left for the next string. -/
theorem text_splits_at_nuls_threeTexts :
    Utf8.Ended ["ab", "", "\u00e9"] threeTexts.octets ∧
      ((ofBytes threeTexts).run [.text 2, .text 2, .text 2]).map Prod.fst =
        [.ok (.text "ab"), .ok (.text ""), .ok (.text "\u00e9")] ∧
      (ofBytes threeTexts).reached [.text 2, .text 2, .text 2] = ⟨threeTexts, 6⟩ ∧
      (ofBytes threeTexts).text 1 = .ok ("a", ⟨threeTexts, 1⟩) := by
  have hended : Utf8.Ended ["ab", "", "\u00e9"] threeTexts.octets :=
    .cons (.cons (.last (by decide)))
  obtain ⟨hanswers, hreached, _⟩ :=
    text_splits_at_nuls.1 _ threeTexts 2 hended (by decide) (by decide)
  exact ⟨hended, hanswers, hreached, (text_splits_at_nuls.2 (ofBytes threeTexts) 1 rfl).1⟩

end Cursor

end PeImage
