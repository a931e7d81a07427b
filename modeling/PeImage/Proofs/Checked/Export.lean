import PeImage.ExportTable
import PeImage.Proofs.Checked.Source

/-!
# Reading exports with checked steps

The fixed part of the directory is read field by field, which cannot fail once the window was found
to be long enough for it. The arrays are cut out by a declared count whose product with the width of
a number may leave the range of words, and is limited there. A forwarder is cut out of the window
at an offset that was found to be inside it.
-/

namespace PeImage.Checked

/-- The fixed part of the export directory. -/
def exportDirectory : Reader ExportDirectory := do
  let characteristics ← word32
  let timeDateStamp ← word32
  let majorVersion ← word16
  let minorVersion ← word16
  let nameRva ← word32
  let ordinalBase ← word32
  let functionCount ← word32
  let nameCount ← word32
  let addressesRva ← word32
  let namePointersRva ← word32
  let nameOrdinalsRva ← word32
  return {
    characteristics, timeDateStamp, majorVersion, minorVersion, nameRva, ordinalBase,
    functionCount, nameCount, addressesRva, namePointersRva, nameOrdinalsRva }

section Readers

variable (window : DirectoryWindow) (source : Source) (limits : Limits)

/-- The addresses of the functions. -/
def exportAddresses (directory : ExportDirectory) : Checked (List UInt32) := do
  let count := min directory.functionCount.toNat limits.exports
  match ← source.words? directory.addressesRva 4 (by decide) count with
  | some words => return words.map UInt32.ofNat
  | none => refuse (.exportAddressesUnresolved directory.addressesRva)

/-- The addresses of names, each with the position that it names. -/
def exportNamePairs (directory : ExportDirectory) : Checked (List (UInt32 × Nat)) := do
  let count := min directory.nameCount.toNat limits.exports
  if count = 0 then return []
  let pointers ← source.words? directory.namePointersRva 4 (by decide) count
  let positions ← source.words? directory.nameOrdinalsRva 2 (by decide) count
  match pointers, positions with
  | some pointers, some positions => return (pointers.map UInt32.ofNat).zip positions
  | _, _ => return []

/-- Gives a name to a position, unless it has one already, is out of range, or the name cannot be
read. -/
def assignExportName (slots : Array (Option String)) (pair : UInt32 × Nat) :
    Checked (Array (Option String)) :=
  match slots[pair.2]? with
  | some none => do
    match ← attempt (source.text pair.1 limits.stringLength) with
    | .ok name => return slots.setIfInBounds pair.2 (some name)
    | .error _ => return slots
  | _ => .ok slots

/-- The text of the forwarder at an address, if the address is inside the window. -/
def exportForwarder (rva : UInt32) : Checked (Option String) :=
  match window.offset? rva with
  | none => .ok none
  | some offset => do
    let behind ← slice window.data offset window.data.size
    let found ← attempt (text limits.stringLength (Cursor.ofBytes behind))
    return found.toOption.map Prod.fst

/-- The export at a position of the array of functions, if the position is in use. Positions that
are no 32-bit word count as the last one. -/
def exportEntry? (ordinalBase : UInt32) (names : Array (Option String)) (rva : UInt32)
    (position : Nat) : Checked (Option ExportEntry) := do
  if rva = 0 then return none
  let forwarder ← exportForwarder window limits rva
  return some {
    ordinal := ordinalBase + UInt32.ofNat (min position (UInt32.size - 1))
    rva := rva
    name := names.getD position none
    forwarder := forwarder }

/-- The exports that a directory describes. -/
def exportsOf (directory : ExportDirectory) : Checked ExportTable := do
  let name ← attempt (source.text directory.nameRva limits.stringLength)
  let addresses ← exportAddresses source limits directory
  let pairs ← exportNamePairs source limits directory
  let names ← pairs.foldlM (assignExportName source limits)
    (Array.replicate addresses.length none)
  let entries ← addresses.zipIdx.filterMapM fun slot =>
    exportEntry? window limits directory.ordinalBase names slot.1 slot.2
  return { directory, name := name.toOption, entries }

/-- Reads the exports that the directory in a window describes. -/
def exportTable : Checked ExportTable :=
  if window.data.size < ExportDirectory.byteSize then
    refuse (.exportDirectoryShort window.data.size)
  else do
    let (directory, _) ← certain (exportDirectory (Cursor.ofBytes window.data))
    exportsOf window source limits directory

end Readers

/-- The fixed part of the directory is read as a whole or not at all. -/
theorem reads_exportDirectory :
    Reads ExportDirectory.byteSize (fun data offset => {
        characteristics := data.u32 offset
        timeDateStamp := data.u32 (offset + 4)
        majorVersion := data.u16 (offset + 8)
        minorVersion := data.u16 (offset + 10)
        nameRva := data.u32 (offset + 12)
        ordinalBase := data.u32 (offset + 16)
        functionCount := data.u32 (offset + 20)
        nameCount := data.u32 (offset + 24)
        addressesRva := data.u32 (offset + 28)
        namePointersRva := data.u32 (offset + 32)
        nameOrdinalsRva := data.u32 (offset + 36) : ExportDirectory }) exportDirectory :=
  reads_word32.bind fun _ => reads_word32.bind fun _ => reads_word16.bind fun _ =>
    reads_word16.bind fun _ => reads_word32.bind fun _ => reads_word32.bind fun _ =>
    reads_word32.bind fun _ => reads_word32.bind fun _ => reads_word32.bind fun _ =>
    reads_word32.bind fun _ => reads_word32.bind fun _ => .pure _

/-- The forwarder at an address is cut out of the window where the address is inside it. -/
theorem exportForwarder_eq (window : DirectoryWindow) (limits : Limits)
    (hsize : window.data.size ≤ Limits.largest) (rva : UInt32) :
    exportForwarder window limits rva =
      .ok ((window.offset? rva).map (window.data.textAt · limits.stringLength)) := by
  unfold exportForwarder
  cases hoffset : window.offset? rva with
  | none => rfl
  | some offset =>
    have hinside : offset < window.data.size := by
      unfold DirectoryWindow.offset? at hoffset
      split at hoffset
      · rename_i h
        obtain rfl := Option.some.inj hoffset
        exact h.2
      · exact nomatch hoffset
    let behind := window.data.clip offset (window.data.size - offset)
    obtain ⟨next, htext⟩ := text_of_inside limits.stringLength (Cursor.ofBytes behind)
      (Bytes.size_clip_le hsize _ _)
      (show 0 < behind.size by rw [Bytes.size_clip]; omega)
    have hbehind : behind.textAt 0 limits.stringLength =
        window.data.textAt offset limits.stringLength := by
      rw [Bytes.textAt, Bytes.textAt, Bytes.terminatedAt_eq, Bytes.terminatedAt_eq,
        Bytes.octets_clip_rest, List.drop_zero]
    dsimp only
    rw [slice_eq (Nat.le_of_lt hinside) (Nat.le_refl _), ok_bind, htext]
    exact congrArg (fun found => Except.ok (some found)) hbehind

/-- No more addresses are read than a 32-bit word counts. -/
theorem length_addresses_lt {space : AddressSpace} {limits : Limits} {directory : ExportDirectory}
    {addresses : List UInt32} (h : ExportTable.addresses space limits directory = .ok addresses) :
    addresses.length < UInt32.size := by
  unfold ExportTable.addresses at h
  dsimp only at h
  split at h
  · obtain rfl := Except.ok.inj h
    decide
  · split at h
    · rename_i words hwords
      obtain rfl := Except.ok.inj h
      obtain ⟨offset, _, rfl⟩ := Option.map_eq_some_iff.mp hwords
      have hcount := directory.functionCount.toNat_lt
      rw [List.length_map, Bytes.length_wordsAt, Bytes.wordCount]
      unfold UInt32.size
      omega
    · cases h

/-- An export is read without a trap where the position is a 32-bit word. -/
theorem exportEntry?_eq (window : DirectoryWindow) (limits : Limits)
    (hsize : window.data.size ≤ Limits.largest) (ordinalBase : UInt32)
    (names : Array (Option String)) (rva : UInt32) {position : Nat} (h : position < UInt32.size) :
    exportEntry? window limits ordinalBase names rva position =
      .ok (ExportTable.entry? window limits.stringLength ordinalBase names rva position) := by
  have hposition : min position (UInt32.size - 1) = position := by omega
  unfold exportEntry? ExportTable.entry?
  split
  · rfl
  · rw [exportForwarder_eq window limits hsize, hposition]
    rfl

namespace Source.Realizes

variable {source : Source} {space : AddressSpace} (h : source.Realizes space)

include h

/-- What is read of a string, or that nothing is, is the same in the address space. -/
theorem attempt_text_eq (rva : UInt32) (cap : Nat) :
    attempt (source.text rva cap) = .ok (space.text rva cap) := by
  rw [h.text_eq, attempt_ofResult]

/-- The addresses of functions are those of the exact reader. -/
theorem exportAddresses_eq (limits : Limits) (directory : ExportDirectory) :
    exportAddresses source limits directory =
      ofResult (ExportTable.addresses space limits directory) := by
  unfold exportAddresses ExportTable.addresses
  dsimp only
  generalize min directory.functionCount.toNat limits.exports = count
  rw [h.words?_eq, ok_bind]
  by_cases hcount : count = 0
  · rw [if_pos hcount, if_pos hcount]
    rfl
  · rw [if_neg hcount, if_neg hcount]
    cases space.words? directory.addressesRva 4 count <;> rfl

/-- The addresses of names are those of the exact reader. -/
theorem exportNamePairs_eq (limits : Limits) (directory : ExportDirectory) :
    exportNamePairs source limits directory =
      .ok (ExportTable.namePairs space limits directory) := by
  unfold exportNamePairs ExportTable.namePairs
  dsimp only
  generalize min directory.nameCount.toNat limits.exports = count
  by_cases hcount : count = 0
  · rw [if_pos hcount, hcount, AddressSpace.words?, AddressSpace.words?]
    cases space.offset? directory.namePointersRva <;> cases space.offset? directory.nameOrdinalsRva
      <;> simp only [Option.map_none, Option.map_some, Bytes.wordsAt_zero, List.zip_nil_right] <;> rfl
  · rw [if_neg hcount, h.words?_eq, ok_bind, h.words?_eq, ok_bind, if_neg hcount, if_neg hcount]
    cases space.words? directory.namePointersRva 4 count <;>
      cases space.words? directory.nameOrdinalsRva 2 count <;> rfl

/-- A name is given to a position as by the exact reader. -/
theorem assignExportName_eq (limits : Limits) (slots : Array (Option String))
    (pair : UInt32 × Nat) :
    assignExportName source limits slots pair =
      .ok (ExportTable.assignName space limits.stringLength slots pair) := by
  unfold assignExportName ExportTable.assignName
  cases hslot : slots[pair.2]? with
  | none => rfl
  | some slot =>
    cases slot with
    | some name => rfl
    | none =>
      dsimp only
      rw [h.attempt_text_eq, ok_bind, AddressSpace.text]
      cases space.text? pair.1 limits.stringLength with
      | some name => rfl
      | none =>
        -- A free position that is set free again stays as it was.
        have hfree : slots.setIfInBounds pair.2 none = slots := by
          obtain ⟨hinside, hnone⟩ := Array.getElem?_eq_some_iff.mp hslot
          rw [Array.setIfInBounds_def, dif_pos hinside, ← hnone, Array.set_getElem_self]
        exact congrArg Except.ok hfree.symm

/-- The exports of a window are read without a trap, and are those of the exact reader. -/
theorem exportTable_eq (window : DirectoryWindow) (limits : Limits)
    (hsize : window.data.size ≤ Limits.largest) :
    exportTable window source limits = ofResult (ExportTable.read window space limits) := by
  unfold exportTable ExportTable.read
  by_cases hshort : window.data.size < ExportDirectory.byteSize
  · rw [if_pos hshort, if_pos hshort]
    rfl
  · have hinside : (Cursor.ofBytes window.data).position + ExportDirectory.byteSize ≤
        window.data.size := by
      rw [Cursor.ofBytes, Nat.zero_add]
      exact Nat.le_of_not_lt hshort
    have hdirectory : certain (exportDirectory (Cursor.ofBytes window.data)) =
        .ok (ExportDirectory.read window.data, ⟨window.data, 0 + ExportDirectory.byteSize⟩) :=
      reads_exportDirectory.certain hsize hinside
    rw [if_neg hshort, if_neg hshort, hdirectory, ok_bind]
    dsimp only
    generalize ExportDirectory.read window.data = directory
    rw [exportsOf, h.attempt_text_eq, ok_bind, h.exportAddresses_eq]
    cases haddresses : ExportTable.addresses space limits directory with
    | error fault => rfl
    | ok addresses =>
      have hname : (space.text directory.nameRva limits.stringLength).toOption =
          space.text? directory.nameRva limits.stringLength := by
        rw [AddressSpace.text]
        cases space.text? directory.nameRva limits.stringLength <;> rfl
      have hentries (names : Array (Option String)) :
          addresses.zipIdx.filterMapM (fun slot =>
              exportEntry? window limits directory.ordinalBase names slot.1 slot.2) =
            .ok (addresses.zipIdx.filterMap fun slot =>
              ExportTable.entry? window limits.stringLength directory.ordinalBase names slot.1
                slot.2) := by
        refine filterMapM_eq _ _ _ fun slot hslot => ?_
        have hposition := (List.mem_zipIdx hslot).2.1
        have hlength := length_addresses_lt haddresses
        exact exportEntry?_eq window limits hsize _ _ _ (by omega)
      rw [ofResult_ok, ok_bind, h.exportNamePairs_eq, ok_bind,
        foldlM_eq _ _ (h.assignExportName_eq limits), ok_bind, hentries, ok_bind, hname]
      rfl

end Source.Realizes

end PeImage.Checked
