import PeImage.Proofs.Bytes.Progress
import PeImage.Proofs.Checked.Cursor

/-!
# Runs of a cursor that is moved in place

An exact cursor that is refused a request is the cursor there was before, since nothing else is
returned. An engine moves one cursor in place, and after a refusal that cursor is wherever the
request has left it. Most requests look at the bounds before they move; the one for a counted string
moves over the count first, and then has to go back when the units are cut off.

A `Move` keeps the cursor through a failure, so going back is a step of its own that can be missing.
Each request is shown to end as the exact one does, with the cursor moved in the one case and back
in its place in the other, and so does every run of requests: it meets no trap, and after each of
its requests the cursor is inside the bytes.
-/

namespace PeImage.Checked

open Cursor (Request Answer)

variable {α β : Type}

/-- A computation that moves a cursor in place. The cursor is there also after a failure. -/
abbrev Move (α : Type) := EStateM Stop Cursor α

namespace Move

/-- Refuses because the bytes have ended, with the cursor left where it is. -/
def outOfBounds : Move α := throw (.fault .outOfBounds)

/-- A computation that does not look at the cursor. -/
def lift (computation : Checked α) : Move α := fun cursor =>
  match computation with
  | .ok value => .ok value cursor
  | .error stop => .error stop cursor

/-- Puts the cursor at a place, which is not checked. -/
def moveTo (position : Nat) : Move Unit := modify fun cursor => { cursor with position }

/-- The cursor at another place; the end of the bytes is one. -/
def seek (position : Nat) : Move Unit := do
  if (← get).data.size < position then outOfBounds else moveTo position

/-- The place `count` bytes on. -/
def placeAfter (count : Nat) : Move Nat := do
  let cursor ← get
  match add? cursor.position count with
  | none => outOfBounds
  | some stop => if cursor.data.size < stop then outOfBounds else return stop

/-- The cursor `count` bytes on. -/
def advance (count : Nat) : Move Unit := do
  moveTo (← placeAfter count)

/-- The next `count` bytes. -/
def take (count : Nat) : Move Bytes := do
  let stop ← placeAfter count
  let cursor ← get
  let found ← lift (slice cursor.data cursor.position stop)
  moveTo stop
  return found

/-- The next integer of a format. The bytes that were cut out for it have to be as many. -/
def integer (format : IntFormat) : Move Int := do
  let stop ← placeAfter format.width
  let cursor ← get
  let stored ← lift (slice cursor.data cursor.position stop)
  if stored.size = format.width then
    moveTo stop
    return format.ofOctets stored.octets
  else outOfBounds

/-- The next terminated string of at most `cap` bytes. The cursor is moved before they are cut
out. -/
def text (cap : Nat) : Move String := do
  let cursor ← get
  if cursor.hasMore then
    let limit := min (addUpTo cursor.position cap) cursor.data.size
    let stop ← lift (textStop cursor.data cursor.position limit)
    moveTo (← lift (passNul cursor.data stop))
    let found ← lift (slice cursor.data cursor.position stop)
    return Utf8.decode found.octets
  else outOfBounds

/-- The next 16-bit word. -/
def word16 : Move UInt16 := return UInt16.ofNat (← integer .u16).toNat

/-- The next `count` words. -/
def words16 : (count : Nat) → Move (List UInt16)
  | 0 => return []
  | count + 1 => do
    let word ← word16
    return word :: (← words16 count)

/-- The next counted UTF-16 string. From behind the count the cursor goes back where the units are
cut off. -/
def wideText : Move String := do
  let start ← get
  let count ← word16
  match mul? count.toNat 2 with
  | none =>
    moveTo start.position
    outOfBounds
  | some length =>
    if (← get).remaining < length then
      moveTo start.position
      outOfBounds
    else return Utf16.text (← words16 count.toNat)

/-- Performs a request. -/
def perform : Request → Move Answer
  | .seek position => do
    seek position
    return .moved
  | .advance count => do
    advance count
    return .moved
  | .placeAfter count => return .place (← placeAfter count)
  | .take count => return .bytes (← take count)
  | .integer format => return .integer (← integer format)
  | .text cap => return .text (← text cap)
  | .wideText => return .text (← wideText)

/-- How a computation ends that moves the cursor as an exact one does, and not at all where that is
refused. -/
def settled (cursor : Cursor) : Except Fault (α × Cursor) → EStateM.Result Stop Cursor α
  | .ok (value, next) => .ok value next
  | .error fault => .error (.fault fault) cursor

/-- A value is lifted without a move. -/
theorem lift_ok (value : α) (cursor : Cursor) : lift (.ok value) cursor = .ok value cursor := rfl

/-- What is made of a value does not change where a computation ends. -/
theorem map_settled {part : Move α} {cursor : Cursor} {exact : Except Fault (α × Cursor)}
    (f : α → β) (h : part cursor = settled cursor exact) :
    (part >>= fun value => pure (f value)) cursor =
      settled cursor (exact.map fun read => (f read.1, read.2)) := by
  cases exact with
  | error fault => exact bind_of_error h
  | ok read => exact bind_of_ok h

section Requests

variable {cursor : Cursor}

/-- A cursor is put at a place as the exact one is. -/
theorem seek_eq (position : Nat) :
    seek position cursor = settled cursor ((cursor.seek position).map ((), ·)) := by
  rw [seek, bind_of_ok (get_eq cursor), Cursor.seek]
  by_cases hinside : position ≤ cursor.data.size
  · rw [if_neg (Nat.not_lt_of_le hinside), if_pos hinside]
    rfl
  · rw [if_pos (Nat.lt_of_not_le hinside), if_neg hinside]
    rfl

/-- The place behind bytes that are there is found. -/
theorem placeAfter_of_inside {count : Nat} (hsize : cursor.data.size ≤ Limits.largest)
    (hinside : cursor.position + count ≤ cursor.data.size) :
    placeAfter count cursor = .ok (cursor.position + count) cursor := by
  have hstop : add? cursor.position count = some (cursor.position + count) :=
    if_pos (Nat.le_trans hinside hsize)
  rw [placeAfter, bind_of_ok (get_eq cursor), hstop]
  dsimp only
  rw [if_neg (Nat.not_lt_of_le hinside)]
  rfl

/-- The place behind bytes that are cut off is refused, also where it is no word. -/
theorem placeAfter_of_cut {count : Nat} (hcut : cursor.data.size < cursor.position + count) :
    placeAfter count cursor = .error (.fault .outOfBounds) cursor := by
  rw [placeAfter, bind_of_ok (get_eq cursor)]
  unfold add?
  split
  · dsimp only
    rw [if_pos hcut]
    rfl
  · rfl

/-- An integer whose bytes are there is read, and the cursor is behind it. -/
theorem integer_of_inside (format : IntFormat) (hsize : cursor.data.size ≤ Limits.largest)
    (hinside : cursor.position + format.width ≤ cursor.data.size) :
    integer format cursor =
      .ok (format.ofOctets (cursor.data.octetsAt cursor.position format.width))
        { cursor with position := cursor.position + format.width } := by
  have hwhole : (cursor.data.clip cursor.position format.width).size = format.width := by
    rw [Bytes.size_clip]
    omega
  rw [integer, bind_of_ok (placeAfter_of_inside hsize hinside), bind_of_ok (get_eq cursor),
    slice_eq (Nat.le_add_right _ _) hinside, Nat.add_sub_cancel_left, bind_of_ok (lift_ok _ _),
    if_pos hwhole]
  rfl

/-- An integer whose bytes are cut off is refused. -/
theorem integer_of_cut (format : IntFormat)
    (hcut : cursor.data.size < cursor.position + format.width) :
    integer format cursor = .error (.fault .outOfBounds) cursor :=
  bind_of_error (placeAfter_of_cut hcut)

/-- A word whose bytes are there is read, and the cursor is behind it. -/
theorem word16_of_inside (hsize : cursor.data.size ≤ Limits.largest)
    (hinside : cursor.position + 2 ≤ cursor.data.size) :
    word16 cursor =
      .ok (cursor.data.u16 cursor.position) { cursor with position := cursor.position + 2 } :=
  bind_of_ok (integer_of_inside .u16 hsize hinside)

/-- A word whose bytes are cut off is refused. -/
theorem word16_of_cut (hcut : cursor.data.size < cursor.position + 2) :
    word16 cursor = .error (.fault .outOfBounds) cursor :=
  bind_of_error (integer_of_cut .u16 hcut)

/-- Words whose bytes are there are read, and the cursor is behind them. -/
theorem words16_of_inside (count : Nat) (cursor : Cursor)
    (hsize : cursor.data.size ≤ Limits.largest)
    (hinside : cursor.position + 2 * count ≤ cursor.data.size) :
    words16 count cursor = .ok ((cursor.data.wordsAt cursor.position 2 count).map UInt16.ofNat)
      { cursor with position := cursor.position + 2 * count } := by
  induction count generalizing cursor with
  | zero =>
    rw [Bytes.wordsAt_zero]
    rfl
  | succ count ih =>
    have hword := word16_of_inside hsize (show cursor.position + 2 ≤ cursor.data.size by omega)
    have hrest := ih { cursor with position := cursor.position + 2 } hsize (by dsimp only; omega)
    have hplace : cursor.position + 2 * (count + 1) = cursor.position + 2 + 2 * count := by omega
    rw [Bytes.wordsAt_succ _ _ (by decide), if_pos (by omega), hplace, words16, bind_of_ok hword,
      bind_of_ok hrest]
    rfl

variable (hsize : cursor.data.size ≤ Limits.largest)

include hsize

/-- The place `count` bytes on is found as the exact one is. -/
theorem placeAfter_eq (count : Nat) :
    placeAfter count cursor = settled cursor ((cursor.placeAfter count).map (·, cursor)) := by
  rw [Cursor.placeAfter]
  by_cases hinside : cursor.position + count ≤ cursor.data.size
  · rw [placeAfter_of_inside hsize hinside, if_pos hinside]
    rfl
  · rw [placeAfter_of_cut (Nat.lt_of_not_le hinside), if_neg hinside]
    rfl

/-- A cursor is advanced as the exact one is. -/
theorem advance_eq (count : Nat) :
    advance count cursor = settled cursor ((cursor.advance count).map ((), ·)) := by
  rw [advance, Cursor.advance, Cursor.placeAfter]
  by_cases hinside : cursor.position + count ≤ cursor.data.size
  · rw [bind_of_ok (placeAfter_of_inside hsize hinside), if_pos hinside]
    rfl
  · rw [bind_of_error (placeAfter_of_cut (Nat.lt_of_not_le hinside)), if_neg hinside]
    rfl

/-- Bytes are taken as the exact ones are. -/
theorem take_eq (count : Nat) : take count cursor = settled cursor (cursor.take count) := by
  rw [take, Cursor.take, Cursor.advance, Cursor.placeAfter]
  by_cases hinside : cursor.position + count ≤ cursor.data.size
  · rw [bind_of_ok (placeAfter_of_inside hsize hinside), bind_of_ok (get_eq cursor),
      slice_eq (Nat.le_add_right _ _) hinside, Nat.add_sub_cancel_left, bind_of_ok (lift_ok _ _),
      if_pos hinside]
    rfl
  · rw [bind_of_error (placeAfter_of_cut (Nat.lt_of_not_le hinside)), if_neg hinside]
    rfl

/-- An integer is read as the exact one is. -/
theorem integer_eq (format : IntFormat) :
    integer format cursor = settled cursor (cursor.integer format) := by
  rw [Cursor.integer, IntFormat.readAt?]
  by_cases hinside : cursor.position + format.width ≤ cursor.data.size
  · rw [integer_of_inside format hsize hinside, if_pos hinside]
    rfl
  · rw [integer_of_cut format (Nat.lt_of_not_le hinside), if_neg hinside]
    rfl

/-- A terminated string is read as the exact one is. -/
theorem text_eq (cap : Nat) : text cap cursor = settled cursor (cursor.text cap) := by
  rw [text, bind_of_ok (get_eq cursor), Cursor.text]
  split
  · rename_i hmore
    have hstart : cursor.position < cursor.data.size := of_decide_eq_true hmore
    obtain ⟨found, hfound, hoctets⟩ := slice_terminatedAt _ _ cap (Nat.le_of_lt hstart)
    dsimp only
    rw [textStop_eq _ _ _ hsize hstart, bind_of_ok (lift_ok _ _), passNul_eq _ _ hsize,
      bind_of_ok (lift_ok _ _), hfound, ← hoctets]
    rfl
  · rfl

/-- A counted string is read as the exact one is, and where its units are cut off the cursor is back
before the count. -/
theorem wideText_eq : wideText cursor = settled cursor cursor.wideText := by
  rw [wideText, bind_of_ok (get_eq cursor)]
  unfold Cursor.wideText Utf16.countedUnits? Bytes.u16?
  by_cases hcount : cursor.position + 2 ≤ cursor.data.size
  · have hword := (cursor.data.u16 cursor.position).toNat_lt
    rw [bind_of_ok (word16_of_inside hsize hcount), if_pos hcount, Option.bind_eq_bind,
      Option.bind_some]
    generalize (cursor.data.u16 cursor.position).toNat = count at hword ⊢
    have hlength : mul? count 2 = some (count * 2) := if_pos (by unfold Limits.largest; omega)
    rw [hlength]
    dsimp only
    rw [bind_of_ok (get_eq _), Cursor.remaining]
    dsimp only
    by_cases hunits : cursor.position + 2 + 2 * count ≤ cursor.data.size
    · have hunitCount : (cursor.data.wordsAt (cursor.position + 2) 2 count).length = count := by
        rw [Bytes.length_wordsAt, Bytes.wordCount]
        omega
      have hread := words16_of_inside count ⟨cursor.data, cursor.position + 2⟩ hsize hunits
      rw [if_neg (by omega), if_pos hunits, bind_of_ok hread]
      dsimp only
      rw [List.length_map, hunitCount, ← Nat.add_assoc]
      rfl
    · rw [if_pos (by omega), if_neg hunits]
      rfl
  · rw [bind_of_error (word16_of_cut (Nat.lt_of_not_le hcount)), if_neg hcount]
    rfl

/-- A request is performed as the exact one is. -/
theorem perform_eq (request : Request) :
    perform request cursor = settled cursor (cursor.perform request) := by
  cases request with
  | seek position =>
    rw [perform, map_settled (fun _ => Answer.moved) (seek_eq position), Cursor.perform]
    cases cursor.seek position <;> rfl
  | advance count =>
    rw [perform, map_settled (fun _ => Answer.moved) (advance_eq hsize count), Cursor.perform]
    cases cursor.advance count <;> rfl
  | placeAfter count =>
    rw [perform, map_settled Answer.place (placeAfter_eq hsize count), Cursor.perform]
    cases cursor.placeAfter count <;> rfl
  | take count => exact map_settled Answer.bytes (take_eq hsize count)
  | integer format => exact map_settled Answer.integer (integer_eq hsize format)
  | text cap => exact map_settled Answer.text (text_eq hsize cap)
  | wideText => exact map_settled Answer.text (wideText_eq hsize)

end Requests

end Move

/-- One request of a run, with the cursors before and after it. -/
structure Moment where
  request : Request
  before : Cursor
  outcome : Except Fault Answer
  after : Cursor

/-- The moments of a run of one cursor. A run that meets a trap breaks off there. -/
def history : Cursor → List Request → List Moment
  | _, [] => []
  | before, request :: rest =>
    match Move.perform request before with
    | .ok answer after => ⟨request, before, .ok answer, after⟩ :: history after rest
    | .error (.fault fault) after => ⟨request, before, .error fault, after⟩ :: history after rest
    | .error (.trap _) _ => []

namespace Moment

/-- What a request comes to for the exact cursor. -/
def ofStep (cursor : Cursor) (request : Request) : Moment :=
  ⟨request, cursor, (cursor.step request).1, (cursor.step request).2⟩

/-- The outcome and the cursor after it. -/
def reached (moment : Moment) : Except Fault Answer × Cursor := (moment.outcome, moment.after)

/-- A moment of a cursor over the given bytes: the cursor is inside them, where the request was
refused it has not moved, and where it was answered it has gone on as far as it has to. -/
structure Sound (data : Bytes) (moment : Moment) : Prop where
  sameData : moment.after.data = data
  inside : moment.after.position ≤ data.size
  remaining : moment.after.position + moment.after.remaining = data.size
  hasMore : moment.after.hasMore ↔ moment.after.position < data.size
  refused : ∀ fault, moment.outcome = .error fault →
    fault = .outOfBounds ∧ moment.after = moment.before
  onwards : ∀ answer, moment.outcome = .ok answer → moment.request.goesOn →
    moment.before.position ≤ moment.after.position
  further : ∀ answer, moment.outcome = .ok answer → moment.request.consumes →
    moment.before.position < moment.after.position

/-- The bytes that are left follow from where the cursor is, and the rest from what the outcome
says. -/
theorem sound_of_inside {data : Bytes} {moment : Moment} (hdata : moment.after.data = data)
    (hinside : moment.after.position ≤ data.size)
    (hrefused : ∀ fault, moment.outcome = .error fault →
      fault = .outOfBounds ∧ moment.after = moment.before)
    (hanswered : ∀ answer, moment.outcome = .ok answer →
      Cursor.Leads moment.request moment.before moment.after) : Sound data moment where
  sameData := hdata
  inside := hinside
  remaining := by
    rw [Cursor.remaining, hdata]
    omega
  hasMore := by
    rw [Cursor.hasMore, hdata, decide_eq_true_iff]
  refused := hrefused
  onwards answer h := (hanswered answer h).onwards
  further answer h := (hanswered answer h).further

/-- A request that the exact cursor is asked makes a sound moment. -/
theorem sound_ofStep {cursor : Cursor} (hinside : cursor.position ≤ cursor.data.size)
    (request : Request) : Sound cursor.data (ofStep cursor request) := by
  cases hperform : cursor.perform request with
  | error fault =>
    have hstep : ofStep cursor request = ⟨request, cursor, .error fault, cursor⟩ := by
      rw [ofStep, Cursor.step, hperform]
    rw [hstep]
    refine sound_of_inside rfl hinside (fun other hother => ⟨?_, rfl⟩) nofun
    obtain rfl := Except.error.inj hother
    exact Cursor.eq_outOfBounds_of_perform hperform
  | ok read =>
    obtain ⟨answer, next⟩ := read
    have hleads := Cursor.leads_of_perform hinside hperform
    have hstep : ofStep cursor request = ⟨request, cursor, .ok answer, next⟩ := by
      rw [ofStep, Cursor.step, hperform]
    rw [hstep]
    exact sound_of_inside hleads.data hleads.inside nofun fun _ _ => hleads

end Moment

/-- A run makes its first request as the exact cursor does, and goes on from there. -/
theorem history_cons {cursor : Cursor} (hsize : cursor.data.size ≤ Limits.largest)
    (request : Request) (rest : List Request) :
    history cursor (request :: rest) =
      .ofStep cursor request :: history (cursor.step request).2 rest := by
  rw [history, Move.perform_eq hsize, Moment.ofStep, Cursor.step]
  cases cursor.perform request <;> rfl

/-- A run from inside the bytes is that of the exact cursor, and its moments are sound. -/
theorem history_of_inside {data : Bytes} (hsize : data.size ≤ Limits.largest)
    (requests : List Request) (cursor : Cursor) (hdata : cursor.data = data)
    (hinside : cursor.position ≤ data.size) :
    (history cursor requests).map Moment.request = requests ∧
      (history cursor requests).map Moment.reached = cursor.run requests ∧
      ∀ moment ∈ history cursor requests, moment.Sound data := by
  induction requests generalizing cursor with
  | nil => exact ⟨rfl, rfl, fun _ h => nomatch h⟩
  | cons request rest ih =>
    subst hdata
    -- The cursor after the first request is inside as well, whether it was answered or refused.
    have hfirst := Moment.sound_ofStep hinside request
    obtain ⟨hrequests, hreached, hsound⟩ := ih (cursor.step request).2 hfirst.sameData hfirst.inside
    rw [history_cons hsize, List.map_cons, List.map_cons, hrequests, hreached]
    exact ⟨rfl, rfl, List.forall_mem_cons.mpr ⟨hfirst, hsound⟩⟩

/-- A run of requests from the start of the bytes is the run of the exact cursor and meets no trap.
After each request the cursor that is moved in place is inside the bytes; where the request is
refused, it is where it was before, and where it is answered, only a seek has led it back. -/
theorem history_sound (data : Bytes) (hsize : data.size ≤ Limits.largest)
    (requests : List Request) :
    (history (.ofBytes data) requests).map Moment.request = requests ∧
      (history (.ofBytes data) requests).map Moment.reached = (Cursor.ofBytes data).run requests ∧
      ∀ moment ∈ history (.ofBytes data) requests, moment.Sound data :=
  history_of_inside hsize requests (.ofBytes data) rfl (Nat.zero_le _)

/-- A string that counts five units, of which one is there. -/
def cutString : Bytes := .ofOctets [5, 0, 73, 0]

/-- The string is refused from before its count and is then read by its bytes, up to the end. -/
theorem history_sound_cutString :
    cutString.size ≤ Limits.largest ∧
      (history (.ofBytes cutString) [.wideText, .integer .u16, .advance Limits.largest, .text 1,
        .text 1]).map (·.after.position) = [0, 2, 2, 4, 4] ∧
      ∀ moment ∈ history (.ofBytes cutString) [.wideText, .integer .u16,
        .advance Limits.largest, .text 1, .text 1], moment.Sound cutString := by
  have hsize : cutString.size ≤ Limits.largest := by decide
  exact ⟨hsize, rfl, (history_sound cutString hsize _).2.2⟩

end PeImage.Checked
