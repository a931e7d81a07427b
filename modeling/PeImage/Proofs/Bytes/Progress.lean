import PeImage.Bytes.Cursor
import PeImage.Proofs.Bytes.Stored
import PeImage.Proofs.Result

/-!
# Where requests lead a cursor

An answered request leaves the cursor inside its bytes, and only a seek leads it back. A request
for an integer or for a string takes a byte at least when it is answered: the integer its width, the
counted string its count, and the terminated string a byte of its own or the NUL that it starts
with, unless it may have no byte. The one fault there is says that the bytes have ended.
-/

namespace PeImage

/-- Every format has a byte. -/
theorem IntFormat.width_pos (format : IntFormat) : 0 < format.width := by
  cases format <;> decide

namespace Cursor

/-- Whether a request goes on from where the cursor is. -/
def Request.goesOn : Request → Bool
  | seek _ => false
  | advance _ | placeAfter _ | take _ | integer _ | text _ | wideText => true

/-- Whether a request takes a byte at least when it is answered. -/
def Request.consumes : Request → Bool
  | seek _ | advance _ | placeAfter _ | take _ => false
  | integer _ | wideText => true
  | text cap => 0 < cap

/-- An answered request has led from one cursor to the other. -/
structure Leads (request : Request) (before after : Cursor) : Prop where
  data : after.data = before.data
  inside : after.position ≤ before.data.size
  onwards : request.goesOn → before.position ≤ after.position
  further : request.consumes → before.position < after.position

/-- A way on by some bytes that are there. -/
theorem leads_forward {request : Request} {cursor : Cursor} (count : Nat)
    (hinside : cursor.position + count ≤ cursor.data.size)
    (hfurther : request.consumes → 0 < count) :
    Leads request cursor { cursor with position := cursor.position + count } where
  data := rfl
  inside := hinside
  onwards _ := Nat.le_add_right _ _
  further h := Nat.lt_add_of_pos_right (hfurther h)

variable {cursor next : Cursor} {position count : Nat} {fault : Fault}

/-- The place after some bytes is there exactly if they are. -/
theorem placeAfter_eq_ok : cursor.placeAfter count = .ok position ↔
    cursor.position + count ≤ cursor.data.size ∧ cursor.position + count = position := by
  unfold placeAfter
  split <;> simp [*]

/-- A cursor that was advanced is so many bytes on. -/
theorem advance_eq_ok : cursor.advance count = .ok next ↔
    cursor.position + count ≤ cursor.data.size ∧
      { cursor with position := cursor.position + count } = next := by
  rw [advance, bind_eq_ok]
  constructor
  · rintro ⟨position, hplace, hnext⟩
    obtain ⟨hinside, rfl⟩ := placeAfter_eq_ok.mp hplace
    exact ⟨hinside, Except.ok.inj hnext⟩
  · rintro ⟨hinside, rfl⟩
    exact ⟨_, placeAfter_eq_ok.mpr ⟨hinside, rfl⟩, rfl⟩

/-- An integer is read from the bytes of its width. -/
theorem integer_leads {format : IntFormat} {value : Int}
    (h : cursor.integer format = .ok (value, next)) : Leads (.integer format) cursor next := by
  unfold integer IntFormat.readAt? at h
  by_cases hinside : cursor.position + format.width ≤ cursor.data.size
  · rw [if_pos hinside] at h
    obtain ⟨-, rfl⟩ := Prod.mk.inj (Except.ok.inj h)
    exact leads_forward _ hinside fun _ => format.width_pos
  · rw [if_neg hinside] at h
    exact nomatch h

/-- A terminated string is passed together with its NUL. -/
theorem text_leads {cap : Nat} {found : String} (h : cursor.text cap = .ok (found, next)) :
    Leads (.text cap) cursor next := by
  unfold text at h
  split at h
  · rename_i hmore
    have hstart : cursor.position < cursor.data.size := of_decide_eq_true hmore
    have hinside := cursor.data.terminatedAt_inside cursor.position cap
    obtain ⟨-, rfl⟩ := Prod.mk.inj (Except.ok.inj h)
    by_cases hnul : cursor.position + (cursor.data.terminatedAt cursor.position cap).length <
        cursor.data.size ∧
      cursor.data.u8 (cursor.position + (cursor.data.terminatedAt cursor.position cap).length) = 0
    · rw [if_pos hnul, Nat.add_assoc]
      exact leads_forward _ (Nat.add_assoc .. ▸ hnul.1) fun _ => Nat.succ_pos _
    · rw [if_neg hnul]
      refine leads_forward _ (by omega) fun hcap => Nat.pos_of_ne_zero fun hlength => hnul ?_
      -- Without a byte of its own the string starts with the NUL.
      have hnone := List.eq_nil_of_length_eq_zero hlength
      rw [hlength, Nat.add_zero]
      exact ⟨hstart, Bytes.u8_of_terminatedAt_nil (of_decide_eq_true hcap) hstart hnone⟩
  · exact nomatch h

/-- A counted string is passed together with its count. -/
theorem wideText_leads {found : String} (h : cursor.wideText = .ok (found, next)) :
    Leads .wideText cursor next := by
  unfold wideText at h
  split at h
  · rename_i units hunits
    obtain ⟨-, rfl⟩ := Prod.mk.inj (Except.ok.inj h)
    have hinside := ((Utf16.countedUnits?_eq_some ..).mp hunits).2.length_le
    rw [Utf16.length_countedOctets] at hinside
    exact leads_forward _ (by omega) fun _ => by omega
  · exact nomatch h

/-- Where an answered request leads. -/
theorem leads_of_perform (hinside : cursor.position ≤ cursor.data.size) {request : Request}
    {answer : Answer} (h : cursor.perform request = .ok (answer, next)) :
    Leads request cursor next := by
  cases request with
  | seek position =>
    obtain ⟨moved, hseek, hmoved⟩ := map_eq_ok.mp h
    obtain ⟨-, rfl⟩ := Prod.mk.inj hmoved
    unfold seek at hseek
    split at hseek
    · rename_i hposition
      obtain rfl := Except.ok.inj hseek
      exact ⟨rfl, hposition, nofun, nofun⟩
    · exact nomatch hseek
  | advance count =>
    obtain ⟨moved, hadvance, hmoved⟩ := map_eq_ok.mp h
    obtain ⟨-, rfl⟩ := Prod.mk.inj hmoved
    obtain ⟨hcount, rfl⟩ := advance_eq_ok.mp hadvance
    exact leads_forward count hcount nofun
  | placeAfter count =>
    obtain ⟨_, _, hmoved⟩ := map_eq_ok.mp h
    obtain ⟨-, rfl⟩ := Prod.mk.inj hmoved
    exact ⟨rfl, hinside, fun _ => Nat.le_refl _, nofun⟩
  | take count =>
    obtain ⟨read, htake, hread⟩ := map_eq_ok.mp h
    obtain ⟨moved, hadvance, hmoved⟩ := bind_eq_ok.mp htake
    obtain rfl := Except.ok.inj hmoved
    obtain ⟨-, rfl⟩ := Prod.mk.inj hread
    obtain ⟨hcount, rfl⟩ := advance_eq_ok.mp hadvance
    exact leads_forward count hcount nofun
  | integer format =>
    obtain ⟨⟨value, moved⟩, hinteger, hmoved⟩ := map_eq_ok.mp h
    obtain ⟨-, rfl⟩ := Prod.mk.inj hmoved
    exact integer_leads hinteger
  | text cap =>
    obtain ⟨⟨found, moved⟩, htext, hmoved⟩ := map_eq_ok.mp h
    obtain ⟨-, rfl⟩ := Prod.mk.inj hmoved
    exact text_leads htext
  | wideText =>
    obtain ⟨⟨found, moved⟩, htext, hmoved⟩ := map_eq_ok.mp h
    obtain ⟨-, rfl⟩ := Prod.mk.inj hmoved
    exact wideText_leads htext

/-- The place after some bytes is refused because the bytes have ended. -/
theorem eq_outOfBounds_of_placeAfter (h : cursor.placeAfter count = .error fault) :
    fault = .outOfBounds := by
  unfold placeAfter at h
  split at h
  · exact nomatch h
  · exact (Except.error.inj h).symm

/-- A cursor is not advanced because the bytes have ended. -/
theorem eq_outOfBounds_of_advance (h : cursor.advance count = .error fault) :
    fault = .outOfBounds := by
  obtain h | ⟨_, _, h⟩ := bind_eq_error.mp h
  · exact eq_outOfBounds_of_placeAfter h
  · exact nomatch h

/-- A request is refused because the bytes have ended. -/
theorem eq_outOfBounds_of_perform {request : Request} (h : cursor.perform request = .error fault) :
    fault = .outOfBounds := by
  cases request with
  | seek position =>
    have hseek := map_eq_error.mp h
    unfold seek at hseek
    split at hseek
    · exact nomatch hseek
    · exact (Except.error.inj hseek).symm
  | advance count => exact eq_outOfBounds_of_advance (map_eq_error.mp h)
  | placeAfter count => exact eq_outOfBounds_of_placeAfter (map_eq_error.mp h)
  | take count =>
    obtain h | ⟨_, _, h⟩ := bind_eq_error.mp (map_eq_error.mp h)
    · exact eq_outOfBounds_of_advance h
    · exact nomatch h
  | integer format =>
    have hinteger := map_eq_error.mp h
    unfold integer at hinteger
    split at hinteger
    · exact nomatch hinteger
    · exact (Except.error.inj hinteger).symm
  | text cap =>
    have htext := map_eq_error.mp h
    unfold text at htext
    split at htext
    · exact nomatch htext
    · exact (Except.error.inj htext).symm
  | wideText =>
    have htext := map_eq_error.mp h
    unfold wideText at htext
    split at htext
    · exact nomatch htext
    · exact (Except.error.inj htext).symm

end Cursor

end PeImage
