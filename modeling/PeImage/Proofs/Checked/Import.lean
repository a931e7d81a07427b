import PeImage.ImportTable
import PeImage.Proofs.Checked.Source

/-!
# Reading imports with checked steps

Descriptors are read while enough bytes for one are left, so none of them is cut off. The bytes of
an array of thunks, and those of a hint with its name, are cut out with lengths that come from
limits of any size; sums and products of them are limited to a word. The array is then read up to
a zero, to the limit, or to where its bytes end, and the count of what was read pays for it.
-/

namespace PeImage.Checked

/-- The next descriptor. -/
def importDescriptor : Reader ImportDescriptor := do
  let originalFirstThunk ← word32
  let timeDateStamp ← word32
  let forwarderChain ← word32
  let nameRva ← word32
  let firstThunk ← word32
  return { originalFirstThunk, timeDateStamp, forwarderChain, nameRva, firstThunk }

section Readers

variable (source : Source) (limits : Limits)

/-- The hint and name at an address. -/
def hintName? (rva : UInt32) : Checked (Option (UInt16 × String)) := do
  match ← source.slice? rva (addUpTo limits.stringLength 2) with
  | none => return none
  | some data =>
    match ← attempt (word16 (Cursor.ofBytes data)) with
    | .error _ => return none
    | .ok (hint, behind) =>
      match ← attempt (text limits.stringLength behind) with
      | .error _ => return none
      | .ok (name, _) => return some (hint, name)

/-- The function that a thunk names. -/
def importEntry (thunk : Nat) : Checked ImportEntry :=
  if ImportEntry.ordinalMark source.isWide ≤ thunk then .ok (.ordinal (UInt16.ofNat thunk))
  else do
    let rva := UInt32.ofNat (thunk % 0x80000000)
    match ← hintName? source limits rva with
    | some (hint, name) => return .named hint name
    | none => return .unresolved rva

/-- The functions that the thunks behind a cursor name, where `done` of at most `limit` have been
read before. -/
def thunks (limit : Nat) (cursor : Cursor) (done : Nat) : Checked (List ImportEntry) := do
  if done < limit then
    match ← attempt (number (ImportEntry.thunkWidth source.isWide) cursor) with
    | .error _ => return []
    | .ok (thunk, behind) =>
      if thunk = 0 then return []
      let entry ← importEntry source limits thunk
      let rest ← thunks limit behind (done + 1)
      return entry :: rest
  else return []
termination_by limit - done

/-- The functions that the thunks from an address on name, with `budget` functions left for the
library and those behind it. -/
def importEntries (rva : UInt32) (budget : Nat) : Checked (List ImportEntry) := do
  if budget = 0 then return []
  let limit := min budget limits.thunksPerImport
  match ← source.slice? rva (mulUpTo limit (ImportEntry.thunkWidth source.isWide)) with
  | none => return []
  | some data => thunks source limits limit (Cursor.ofBytes data) 0

/-- The libraries of the descriptors behind a cursor, where `done` of them have been read before. -/
def importedLibraries (cursor : Cursor) (done budget : Nat) : Checked (List ImportedLibrary) := do
  if ImportDescriptor.byteSize ≤ cursor.remaining ∧ done < limits.importDescriptors then
    let (descriptor, behind) ← certain (importDescriptor cursor)
    if descriptor = .zero then return []
    let name ← source.text descriptor.nameRva limits.stringLength
    let entries ← importEntries source limits descriptor.lookupRva budget
    let rest ← importedLibraries behind (done + 1) (budget - entries.length)
    return ⟨name, descriptor, entries⟩ :: rest
  else return []
termination_by limits.importDescriptors - done

end Readers

/-- Reads the imports that the directory in a window describes. -/
def importTable (window : DirectoryWindow) (source : Source) (limits : Limits) :
    Checked ImportTable :=
  if window.data.size < ImportDescriptor.byteSize then
    refuse (.importDirectoryShort window.data.size)
  else
    return ⟨← importedLibraries source limits (Cursor.ofBytes window.data) 0 limits.importEntries⟩

/-- A descriptor is read as a whole or not at all. -/
theorem reads_importDescriptor :
    Reads ImportDescriptor.byteSize ImportDescriptor.readAt importDescriptor :=
  reads_word32.bind fun _ => reads_word32.bind fun _ => reads_word32.bind fun _ =>
    reads_word32.bind fun _ => reads_word32.bind fun _ => .pure _

/-- A thunk has bytes. -/
theorem thunkWidth_pos (isWide : Bool) : 0 < ImportEntry.thunkWidth isWide := by
  cases isWide <;> decide

/-- One more descriptor is looked at exactly while its bytes are inside and the limit allows it. -/
theorem moreDescriptors_iff (data : Bytes) (limit done : Nat) :
    ImportDescriptor.byteSize ≤
          (Cursor.mk data (ImportDescriptor.byteSize * done)).remaining ∧ done < limit ↔
      0 < min (data.size / ImportDescriptor.byteSize) limit - done := by
  unfold Cursor.remaining ImportDescriptor.byteSize
  dsimp only
  omega

namespace Source.Realizes

variable {source : Source} {space : AddressSpace} (h : source.Realizes space) (limits : Limits)

include h

/-- The hint and name at an address are those of the exact reader. -/
theorem hintName?_eq (rva : UInt32) :
    hintName? source limits rva =
      .ok (ImportEntry.hintName? space rva limits.stringLength) := by
  rw [hintName?, h.slice, ok_bind, AddressSpace.slice?, ImportEntry.hintName?]
  cases hoffset : space.offset? rva with
  | none => rfl
  | some offset =>
    have hinside := lt_size_of_offset? hoffset
    let part := space.bytes.clip offset (limits.stringLength + 2)
    have hpart : part.size = min (limits.stringLength + 2) (space.bytes.size - offset) :=
      Bytes.size_clip _ _ _
    have hsize : part.size ≤ Limits.largest := Bytes.size_clip_le h.size _ _
    rw [Option.map_some, addUpTo, Bytes.clip_min_largest _ h.size, Option.bind_eq_bind,
      Option.bind_some]
    dsimp only
    by_cases hhint : 0 + 2 ≤ part.size
    · have hvalue : part.u16 0 = space.bytes.u16 offset :=
        congrArg UInt16.ofNat (Bytes.natAt_clip _ _ (by omega))
      rw [reads_word16.inside (Cursor.ofBytes part) hsize hhint, attempt_ok, ok_bind]
      dsimp only [Cursor.ofBytes]
      by_cases hname : 0 + 2 < part.size
      · obtain ⟨next, htext⟩ := text_of_inside limits.stringLength ⟨part, 0 + 2⟩ hsize hname
        have hpartText : part.textAt (0 + 2) limits.stringLength =
            space.bytes.textAt (offset + 2) limits.stringLength :=
          Bytes.textAt_clip _ _ (by omega)
        rw [htext, attempt_ok, ok_bind, if_pos (by omega), ← hvalue, ← hpartText]
        rfl
      · rw [text_of_end _ _ (Nat.le_of_not_lt hname), attempt_refuse, ok_bind, if_neg (by omega)]
        rfl
    · rw [reads_word16.cut (Cursor.ofBytes part) hsize (Nat.zero_le _) (Nat.lt_of_not_le hhint),
        attempt_refuse, ok_bind, if_neg (by omega)]
      rfl

/-- The function that a thunk names is that of the exact reader. -/
theorem importEntry_eq (thunk : Nat) :
    importEntry source limits thunk =
      .ok (ImportEntry.ofThunk space limits.stringLength thunk) := by
  unfold importEntry ImportEntry.ofThunk
  rw [h.isWide]
  split
  · rfl
  · dsimp only
    rw [h.hintName?_eq, ok_bind]
    cases ImportEntry.hintName? space (UInt32.ofNat (thunk % 0x80000000)) limits.stringLength <;> rfl

/-- The functions of thunks are those of the exact reader: of the numbers before the first zero, at
most as many as the limit leaves. -/
theorem thunks_eq (limit left : Nat) (cursor : Cursor) (done : Nat)
    (hsize : cursor.data.size ≤ Limits.largest) (horder : cursor.position ≤ cursor.data.size)
    (hleft : left = limit - done) :
    thunks source limits limit cursor done =
      .ok (((cursor.data.wordsAt cursor.position (ImportEntry.thunkWidth space.isWide)
        left).takeWhile (· ≠ 0)).map (ImportEntry.ofThunk space limits.stringLength)) := by
  have hwidth := thunkWidth_pos space.isWide
  have hreads := reads_number (ImportEntry.thunkWidth space.isWide)
  induction left generalizing cursor done with
  | zero =>
    rw [thunks, if_neg (by omega), Bytes.wordsAt_zero]
    rfl
  | succ left ih =>
    rw [thunks, if_pos (by omega), h.isWide, Bytes.wordsAt_succ _ _ hwidth]
    by_cases hinside :
        cursor.position + ImportEntry.thunkWidth space.isWide ≤ cursor.data.size
    · rw [hreads.inside cursor hsize hinside, if_pos hinside, attempt_ok, ok_bind]
      dsimp only
      by_cases hzero :
          cursor.data.natAt cursor.position (ImportEntry.thunkWidth space.isWide) = 0
      · rw [if_pos hzero, List.takeWhile_cons_of_neg (by simpa using hzero)]
        rfl
      · have hrest := ih
          { cursor with position := cursor.position + ImportEntry.thunkWidth space.isWide }
          (done + 1) hsize hinside (by omega)
        rw [if_neg hzero, List.takeWhile_cons_of_pos (by simpa using hzero), List.map_cons,
          h.importEntry_eq, ok_bind, hrest]
        rfl
    · rw [hreads.cut cursor hsize horder (Nat.lt_of_not_le hinside), if_neg hinside,
        attempt_refuse, ok_bind]
      rfl

/-- The functions of an array of thunks are those of the exact reader. -/
theorem importEntries_eq (rva : UInt32) (budget : Nat) :
    importEntries source limits rva budget =
      .ok (ImportEntry.list space limits.stringLength rva (min budget limits.thunksPerImport)) := by
  have hwidth := thunkWidth_pos space.isWide
  unfold importEntries ImportEntry.list
  by_cases hspent : budget = 0
  · rw [if_pos hspent, hspent, Nat.zero_min]
    cases space.offset? rva with
    | none => rfl
    | some offset =>
      dsimp only
      rw [Bytes.nonzeroWordsAt_eq, Bytes.wordsAt_zero]
      rfl
  · rw [if_neg hspent]
    dsimp only
    generalize min budget limits.thunksPerImport = limit
    rw [h.slice, ok_bind, AddressSpace.slice?, h.isWide]
    cases space.offset? rva with
    | none => rfl
    | some offset =>
      let part := space.bytes.clip offset (limit * ImportEntry.thunkWidth space.isWide)
      have hsize : part.size ≤ Limits.largest := Bytes.size_clip_le h.size _ _
      rw [Option.map_some, mulUpTo, Bytes.clip_min_largest _ h.size]
      dsimp only
      have hwords : part.wordsAt 0 (ImportEntry.thunkWidth space.isWide) limit =
          space.bytes.wordsAt offset (ImportEntry.thunkWidth space.isWide) limit :=
        Bytes.wordsAt_clip _ _ hwidth (Nat.le_refl limit)
      rw [h.thunks_eq limits limit limit (Cursor.ofBytes part) 0 hsize (Nat.zero_le _) rfl,
        Bytes.nonzeroWordsAt_eq, ← hwords]
      rfl

/-- The libraries of descriptors are those of the exact reader. -/
theorem importedLibraries_eq (data : Bytes) (hsize : data.size ≤ Limits.largest)
    (done count budget : Nat)
    (hcount : count = min (data.size / ImportDescriptor.byteSize) limits.importDescriptors - done) :
    importedLibraries source limits ⟨data, ImportDescriptor.byteSize * done⟩ done budget =
      ofResult (ImportTable.readLibraries space limits budget
        (runWhile (· ≠ .zero) (ImportDescriptor.readAt data <| ImportDescriptor.byteSize * ·)
          count done)) := by
  induction count generalizing done budget with
  | zero =>
    have hnone := mt (moreDescriptors_iff data limits.importDescriptors done).mp (by omega)
    rw [importedLibraries, if_neg hnone]
    rfl
  | succ count ih =>
    have hmore := (moreDescriptors_iff data limits.importDescriptors done).mpr (by omega)
    have hinside : ImportDescriptor.byteSize * done + ImportDescriptor.byteSize ≤ data.size := by
      have hleft := hmore.1
      unfold Cursor.remaining ImportDescriptor.byteSize at *
      dsimp only at hleft
      omega
    rw [importedLibraries, if_pos hmore, reads_importDescriptor.certain hsize hinside, ok_bind,
      runWhile]
    dsimp only
    generalize ImportDescriptor.readAt data (ImportDescriptor.byteSize * done) = descriptor
    by_cases hend : descriptor = .zero
    · rw [if_pos hend, if_neg (by simpa using hend)]
      rfl
    · rw [if_neg hend, if_pos (by simpa using hend), h.text_eq, ImportTable.readLibraries]
      cases space.text descriptor.nameRva limits.stringLength with
      | error fault => rfl
      | ok name =>
        rw [ofResult_ok, ok_bind, ok_bind, h.importEntries_eq, ok_bind,
          ← Nat.mul_succ ImportDescriptor.byteSize done, ih (done + 1) _ (by omega)]
        dsimp only
        rw [ofResult_bind]
        rfl

/-- The imports of a window are read without a trap, and are those of the exact reader. -/
theorem importTable_eq (window : DirectoryWindow) (hsize : window.data.size ≤ Limits.largest) :
    importTable window source limits = ofResult (ImportTable.read window space limits) := by
  unfold importTable ImportTable.read
  by_cases hshort : window.data.size < ImportDescriptor.byteSize
  · rw [if_pos hshort, if_pos hshort]
    rfl
  · have hlibraries := h.importedLibraries_eq limits window.data hsize 0 _
      limits.importEntries rfl
    rw [if_neg hshort, if_neg hshort, ImportDescriptor.list, ofResult_bind]
    exact congrArg (· >>= _) hlibraries

end Source.Realizes

end PeImage.Checked
