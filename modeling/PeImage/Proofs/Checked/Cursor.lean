import PeImage.Bytes.Cursor
import PeImage.Proofs.Bytes.Words
import PeImage.Proofs.Checked.Word

/-!
# Reading with checked steps

The reads of a cursor, with the partial steps that each of them has. A reader of a stored record
reads its fields one behind the other, so it either has all the bytes of the record or refuses;
`Reads` says so, and holds of a reader made of such readers. Strings are read by slices, whose
bounds are in order because the cursor is inside its bytes.
-/

namespace PeImage.Checked

variable {α β : Type}

/-- A computation that reads from a cursor and moves it. -/
abbrev Reader (α : Type) := StateT Cursor Checked α

/-- The next number of `width` bytes. The bytes that were cut out for it have to be as many. -/
def number (width : Nat) : Reader Nat := fun cursor =>
  match add? cursor.position width with
  | none => refuse .outOfBounds
  | some stop =>
    if cursor.data.size < stop then refuse .outOfBounds
    else do
      let stored ← slice cursor.data cursor.position stop
      if stored.size = width then
        return (LittleEndian.toNat stored.octets, { cursor with position := stop })
      else trap .unreachable

/-- The next 16-bit word. -/
def word16 : Reader UInt16 := return UInt16.ofNat (← number 2)

/-- The next 32-bit word. -/
def word32 : Reader UInt32 := return UInt32.ofNat (← number 4)

/-- The cursor at another place. -/
def seek (data : Bytes) (position : Nat) : Checked Cursor :=
  if data.size < position then refuse .outOfBounds else .ok ⟨data, position⟩

/-- A reader continued by another goes on from the place that the first one reaches. -/
theorem Reader.bind_apply (reader : Reader α) (next : α → Reader β) (cursor : Cursor) :
    (reader >>= next) cursor = reader cursor >>= fun read => next read.1 read.2 := rfl

/-- A reader of `size` bytes that gives `value` where all of them are there, and a fault where they
are not. -/
structure Reads (size : Nat) (value : Bytes → Nat → α) (reader : Reader α) : Prop where
  inside : ∀ cursor : Cursor, cursor.data.size ≤ Limits.largest →
    cursor.position + size ≤ cursor.data.size →
    reader cursor =
      .ok (value cursor.data cursor.position, { cursor with position := cursor.position + size })
  cut : ∀ cursor : Cursor, cursor.data.size ≤ Limits.largest →
    cursor.position ≤ cursor.data.size → cursor.data.size < cursor.position + size →
    reader cursor = refuse .outOfBounds

/-- A number of some width is read as a whole or not at all. -/
theorem reads_number (width : Nat) :
    Reads width (fun data offset => data.natAt offset width) (number width) where
  inside cursor hsize hinside := by
    have hstop : add? cursor.position width = some (cursor.position + width) :=
      if_pos (Nat.le_trans hinside hsize)
    have hwhole : (cursor.data.clip cursor.position width).size = width := by
      rw [Bytes.size_clip]
      omega
    rw [number, hstop]
    dsimp only
    rw [if_neg (Nat.not_lt_of_le hinside), slice_eq (Nat.le_add_right _ _) hinside, ok_bind,
      Nat.add_sub_cancel_left, if_pos hwhole]
    rfl
  cut cursor _ _ hcut := by
    rw [number]
    unfold add?
    split
    · rfl
    · rename_i hstop
      split at hstop
      · obtain rfl := Option.some.inj hstop
        exact if_pos hcut
      · exact nomatch hstop

/-- What has no bytes is read without a move. -/
theorem Reads.pure (value : α) : Reads 0 (fun _ _ => value) (Pure.pure value) where
  inside _ _ _ := rfl
  cut _ _ horder hcut := absurd horder (Nat.not_le_of_lt hcut)

/-- A record is read part by part. -/
theorem Reads.bind {size rest : Nat} {first : Bytes → Nat → α} {second : α → Bytes → Nat → β}
    {reader : Reader α} {next : α → Reader β} (hfirst : Reads size first reader)
    (hnext : ∀ value, Reads rest (second value) (next value)) :
    Reads (size + rest) (fun data offset => second (first data offset) data (offset + size))
      (reader >>= next) where
  inside cursor hsize hinside := by
    have hstep := hfirst.inside cursor hsize (by omega)
    have hrest := (hnext (first cursor.data cursor.position)).inside
      { cursor with position := cursor.position + size } hsize (by dsimp only; omega)
    rw [Reader.bind_apply, hstep, ok_bind, hrest, Nat.add_assoc]
  cut cursor hsize horder hcut := by
    rw [Reader.bind_apply]
    by_cases hstop : cursor.position + size ≤ cursor.data.size
    · have hrest := (hnext (first cursor.data cursor.position)).cut
        { cursor with position := cursor.position + size } hsize hstop (by dsimp only; omega)
      rw [hfirst.inside cursor hsize hstop, ok_bind, hrest]
    · rw [hfirst.cut cursor hsize horder (Nat.lt_of_not_le hstop)]
      rfl

/-- A 16-bit word is read as a whole or not at all. -/
theorem reads_word16 : Reads 2 Bytes.u16 word16 := (reads_number 2).bind fun _ => .pure _

/-- A 32-bit word is read as a whole or not at all. -/
theorem reads_word32 : Reads 4 Bytes.u32 word32 := (reads_number 4).bind fun _ => .pure _

/-- A record that is known to lie inside is read without a fault. -/
theorem Reads.certain {size : Nat} {value : Bytes → Nat → α} {reader : Reader α}
    (h : Reads size value reader) {cursor : Cursor} (hsize : cursor.data.size ≤ Limits.largest)
    (hinside : cursor.position + size ≤ cursor.data.size) :
    Checked.certain (reader cursor) =
      .ok (value cursor.data cursor.position,
        { cursor with position := cursor.position + size }) := by
  rw [h.inside cursor hsize hinside, certain_ok]

/-- Where the string that starts at `start` ends, looked for among the bytes before `limit`. -/
def textStop (data : Bytes) (start limit : Nat) : Checked Nat := do
  let seen ← slice data start limit
  match seen.octets.findIdx? (· = 0) with
  | some index => add start index
  | none => return limit

/-- The place behind a NUL, or the place itself if there is none. -/
def passNul (data : Bytes) (stop : Nat) : Checked Nat := do
  if data.size ≤ stop then return stop
  if (← byteAt data stop) = 0 then add stop 1 else return stop

/-- The next terminated string of at most `cap` bytes. -/
def text (cap : Nat) : Reader String := fun cursor =>
  if cursor.hasMore then do
    let limit := min (addUpTo cursor.position cap) cursor.data.size
    let stop ← textStop cursor.data cursor.position limit
    let position ← passNul cursor.data stop
    let found ← slice cursor.data cursor.position stop
    return (Utf8.decode found.octets, { cursor with position })
  else refuse .outOfBounds

/-- The bytes before the first NUL are as many as its index, or all of them. -/
theorem length_takeWhile_ne_zero (octets : List UInt8) :
    (octets.takeWhile (· ≠ 0)).length =
      match octets.findIdx? (· = 0) with
      | some index => index
      | none => octets.length := by
  induction octets with
  | nil => rfl
  | cons byte rest ih =>
    rw [List.findIdx?_cons, List.takeWhile_cons]
    by_cases hnul : byte = 0
    · simp [hnul]
    · simp only [hnul, decide_false, Bool.false_eq_true, if_false, ne_eq, not_false_eq_true,
        decide_true, if_true, List.length_cons]
      simp only [ne_eq] at ih
      rw [ih]
      cases rest.findIdx? (· = 0) <;> rfl

/-- The place where a string ends is found without a trap. -/
theorem textStop_eq (data : Bytes) (start cap : Nat) (hsize : data.size ≤ Limits.largest)
    (hstart : start < data.size) :
    textStop data start (min (addUpTo start cap) data.size) =
      .ok (start + (data.terminatedAt start cap).length) := by
  have hlimit : min (addUpTo start cap) data.size = start + min cap (data.size - start) := by
    unfold addUpTo
    omega
  have hseen : (data.octets.drop start).take (min cap (data.size - start)) =
      (data.octets.drop start).take cap := by
    rw [← Bytes.length_octets, ← List.length_drop, ← List.take_eq_take_min]
  rw [textStop, hlimit, slice_eq (Nat.le_add_right _ _) (by omega), ok_bind,
    Nat.add_sub_cancel_left, Bytes.octets_clip, hseen, Bytes.terminatedAt_eq, terminated,
    length_takeWhile_ne_zero]
  split
  · rename_i index hindex
    obtain ⟨hinside, _⟩ := List.findIdx?_eq_some_iff_getElem.mp hindex
    simp only [List.length_take, List.length_drop, Bytes.length_octets] at hinside
    exact add_eq (by omega)
  · rw [List.length_take, List.length_drop, Bytes.length_octets]
    rfl

/-- A NUL is passed without a trap. -/
theorem passNul_eq (data : Bytes) (stop : Nat) (hsize : data.size ≤ Limits.largest) :
    passNul data stop = .ok (if stop < data.size ∧ data.u8 stop = 0 then stop + 1 else stop) := by
  unfold passNul
  split
  · rename_i hend
    rw [if_neg fun h => Nat.not_lt_of_le hend h.1]
    rfl
  · rename_i hinside
    have hlt : stop < data.size := Nat.lt_of_not_le hinside
    rw [byteAt_eq hlt, ok_bind]
    by_cases hnul : data.u8 stop = 0
    · rw [if_pos hnul, if_pos ⟨hlt, hnul⟩, add_eq (by omega)]
    · rw [if_neg hnul, if_neg fun h => hnul h.2]
      rfl

/-- The bytes of a terminated string are cut out without a trap. -/
theorem slice_terminatedAt (data : Bytes) (start cap : Nat) (hstart : start ≤ data.size) :
    ∃ found, slice data start (start + (data.terminatedAt start cap).length) = .ok found ∧
      found.octets = data.terminatedAt start cap := by
  have hinside := data.terminatedAt_inside start cap
  have hfound := List.prefix_iff_eq_take.mp (data.terminatedAt_prefix start cap)
  refine ⟨_, slice_eq (Nat.le_add_right _ _) (by omega), ?_⟩
  rw [Nat.add_sub_cancel_left, Bytes.octets_clip, ← hfound]

/-- A terminated string is read as the exact reader does. -/
theorem text_eq (cap : Nat) (cursor : Cursor) (hsize : cursor.data.size ≤ Limits.largest) :
    text cap cursor = ofResult (cursor.text cap) := by
  unfold text Cursor.text
  split
  · rename_i hmore
    have hstart : cursor.position < cursor.data.size := of_decide_eq_true hmore
    obtain ⟨found, hfound, hoctets⟩ := slice_terminatedAt _ _ cap (Nat.le_of_lt hstart)
    dsimp only
    rw [textStop_eq _ _ _ hsize hstart, ok_bind, passNul_eq _ _ hsize, ok_bind, hfound, ok_bind,
      hoctets]
    rfl
  · rfl

/-- The next `count` units, which are known to lie inside. -/
def units : (count : Nat) → Reader (List UInt16)
  | 0 => return []
  | count + 1 => do
    let unit ← fun cursor => certain (word16 cursor)
    return unit :: (← units count)

/-- The next `count` units, if there are as many. -/
def countedUnits (count : Nat) : Reader (List UInt16) := fun cursor =>
  match mul? count 2 with
  | none => refuse .outOfBounds
  | some length =>
    if cursor.remaining < length then refuse .outOfBounds else units count cursor

/-- The next counted UTF-16 string. -/
def wideText : Reader String := do
  let count ← word16
  return Utf16.text (← countedUnits count.toNat)

/-- A string is there where a byte is left. -/
theorem text_of_inside (cap : Nat) (cursor : Cursor) (hsize : cursor.data.size ≤ Limits.largest)
    (hinside : cursor.position < cursor.data.size) :
    ∃ next, text cap cursor = .ok (cursor.data.textAt cursor.position cap, next) := by
  have hmore : cursor.hasMore = true := decide_eq_true hinside
  rw [text_eq cap cursor hsize, Cursor.text, if_pos hmore]
  exact ⟨_, rfl⟩

/-- No string is there at the end of the bytes. -/
theorem text_of_end (cap : Nat) (cursor : Cursor) (hend : cursor.data.size ≤ cursor.position) :
    text cap cursor = refuse .outOfBounds := by
  have hmore : ¬ cursor.hasMore = true := fun h => Nat.not_lt_of_le hend (of_decide_eq_true h)
  exact if_neg hmore

/-- Units that lie inside are read without a fault. -/
theorem units_eq (count : Nat) (cursor : Cursor) (hsize : cursor.data.size ≤ Limits.largest)
    (hinside : cursor.position + 2 * count ≤ cursor.data.size) :
    units count cursor =
      .ok ((cursor.data.wordsAt cursor.position 2 count).map UInt16.ofNat,
        { cursor with position := cursor.position + 2 * count }) := by
  induction count generalizing cursor with
  | zero =>
    rw [Bytes.wordsAt_zero]
    rfl
  | succ count ih =>
    have hunit := reads_word16.certain hsize (show cursor.position + 2 ≤ cursor.data.size by omega)
    have hrest := ih { cursor with position := cursor.position + 2 } hsize (by dsimp only; omega)
    have hplace : cursor.position + 2 * (count + 1) = cursor.position + 2 + 2 * count := by omega
    rw [Bytes.wordsAt_succ _ _ (by decide), if_pos (by omega), hplace, units, Reader.bind_apply,
      hunit, ok_bind, Reader.bind_apply, hrest]
    rfl

/-- As many units as a 16-bit word counts are read as a whole or not at all. -/
theorem reads_countedUnits (count : UInt16) :
    Reads (2 * count.toNat)
      (fun data offset => (data.wordsAt offset 2 count.toNat).map UInt16.ofNat)
      (countedUnits count.toNat) := by
  have hlength : mul? count.toNat 2 = some (count.toNat * 2) := by
    have hword := count.toNat_lt
    exact if_pos (by unfold Limits.largest; omega)
  constructor
  · intro cursor hsize hinside
    have hleft : ¬ cursor.remaining < count.toNat * 2 := by
      unfold Cursor.remaining
      omega
    rw [countedUnits, hlength]
    dsimp only
    rw [if_neg hleft, units_eq _ cursor hsize hinside]
  · intro cursor _ horder hcut
    have hleft : cursor.remaining < count.toNat * 2 := by
      unfold Cursor.remaining
      omega
    rw [countedUnits, hlength]
    exact if_pos hleft

/-- A counted string is read as the exact reader does. -/
theorem wideText_eq (cursor : Cursor) (hsize : cursor.data.size ≤ Limits.largest)
    (horder : cursor.position ≤ cursor.data.size) :
    wideText cursor = ofResult cursor.wideText := by
  unfold Cursor.wideText Utf16.countedUnits? Bytes.u16?
  rw [wideText, Reader.bind_apply]
  by_cases hcount : cursor.position + 2 ≤ cursor.data.size
  · have hreads := reads_countedUnits (cursor.data.u16 cursor.position)
    let behind : Cursor := { cursor with position := cursor.position + 2 }
    rw [reads_word16.inside cursor hsize hcount, ok_bind, if_pos hcount, Reader.bind_apply,
      Option.bind_eq_bind, Option.bind_some]
    by_cases hunits :
        cursor.position + 2 + 2 * (cursor.data.u16 cursor.position).toNat ≤ cursor.data.size
    · have hlength : (cursor.data.wordsAt (cursor.position + 2) 2
          (cursor.data.u16 cursor.position).toNat).length =
            (cursor.data.u16 cursor.position).toNat := by
        rw [Bytes.length_wordsAt, Bytes.wordCount]
        omega
      rw [hreads.inside behind hsize hunits, if_pos hunits, ok_bind]
      dsimp only
      rw [List.length_map, hlength, ← Nat.add_assoc]
      exact (ofResult_ok _).symm
    · rw [hreads.cut behind hsize hcount (Nat.lt_of_not_le hunits), if_neg hunits]
      rfl
  · rw [reads_word16.cut cursor hsize horder (Nat.lt_of_not_le hcount), if_neg hcount]
    rfl

/-- A number that was read lies inside, and the cursor is behind it. -/
theorem number_eq_ok {width value : Nat} {cursor next : Cursor}
    (h : number width cursor = .ok (value, next)) :
    cursor.position + width ≤ cursor.data.size ∧
      next = { cursor with position := cursor.position + width } := by
  unfold number add? at h
  split at h
  · exact nomatch h
  · rename_i stop hstop
    split at hstop
    · obtain rfl := Option.some.inj hstop
      split at h
      · exact nomatch h
      · rename_i hinside
        obtain ⟨stored, _, h⟩ := bind_eq_ok.mp h
        split at h
        · obtain ⟨_, rfl⟩ := Prod.mk.inj (Except.ok.inj h)
          exact ⟨Nat.le_of_not_lt hinside, rfl⟩
        · exact nomatch h
    · exact nomatch hstop

/-- Reads numbers of `width` bytes until one is cut off. -/
def numbers (width : Nat) (hwidth : 0 < width) (cursor : Cursor) : Checked (List Nat) :=
  match _hread : number width cursor with
  | .ok (value, next) => return value :: (← numbers width hwidth next)
  | .error (.fault _) => return []
  | .error (.trap cause) => trap cause
termination_by cursor.data.size - cursor.position
decreasing_by
  obtain ⟨hinside, rfl⟩ := number_eq_ok _hread
  dsimp only
  omega

section Numbers

variable (width : Nat) (hwidth : 0 < width) (cursor : Cursor)
  (hsize : cursor.data.size ≤ Limits.largest)

include hsize

/-- A number that lies inside is followed by the numbers behind it. -/
theorem numbers_of_inside (hinside : cursor.position + width ≤ cursor.data.size) :
    numbers width hwidth cursor =
      numbers width hwidth { cursor with position := cursor.position + width } >>= fun rest =>
        .ok (cursor.data.natAt cursor.position width :: rest) := by
  have hread := (reads_number width).inside cursor hsize hinside
  rw [numbers]
  split
  · rename_i value next h
    obtain ⟨rfl, rfl⟩ := Prod.mk.inj (Except.ok.inj (h.symm.trans hread))
    rfl
  · rename_i h
    exact nomatch h.symm.trans hread
  · rename_i h
    exact nomatch h.symm.trans hread

/-- A number that is cut off ends the numbers. -/
theorem numbers_of_cut (horder : cursor.position ≤ cursor.data.size)
    (hcut : cursor.data.size < cursor.position + width) : numbers width hwidth cursor = .ok [] := by
  have hread := (reads_number width).cut cursor hsize horder hcut
  rw [numbers]
  split
  · rename_i h
    exact nomatch h.symm.trans hread
  · rfl
  · rename_i h
    exact nomatch h.symm.trans hread

/-- All whole numbers behind a cursor are read. -/
theorem numbers_eq (horder : cursor.position ≤ cursor.data.size) (limit : Nat)
    (hlimit : cursor.remaining ≤ limit) :
    numbers width hwidth cursor = .ok (cursor.data.wordsAt cursor.position width limit) := by
  unfold Cursor.remaining at hlimit
  induction limit generalizing cursor with
  | zero =>
    rw [numbers_of_cut width hwidth cursor hsize horder (by omega), Bytes.wordsAt_zero]
  | succ limit ih =>
    rw [Bytes.wordsAt_succ _ _ hwidth]
    split
    · rename_i hinside
      have hrest := ih { cursor with position := cursor.position + width } hsize hinside
        (by dsimp only; omega)
      rw [numbers_of_inside width hwidth cursor hsize hinside, hrest, ok_bind]
    · rename_i hcut
      exact numbers_of_cut width hwidth cursor hsize horder (Nat.lt_of_not_le hcut)

end Numbers

end PeImage.Checked
