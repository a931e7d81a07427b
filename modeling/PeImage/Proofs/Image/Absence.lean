import PeImage.Image.Tables
import PeImage.Proofs.Bytes.Part
import PeImage.Proofs.Export.Reference
import PeImage.Proofs.Image.Reading
import PeImage.Proofs.Import.Libraries

/-!
# When a table is absent

An image has no export table, or no import table, for a few reasons only. The table is not declared,
it is declared where no section is, or the file ends before its fixed part does. Past that point one
thing more can be missing: the array of addresses, if functions are declared, and the name of a
library whose descriptor is reached. Nothing else that a table points to can make it absent.
-/

namespace PeImage

namespace Image

/-- An address leads to no byte of the file: no section has it, or the file ends before its
offset. -/
def LeadsNowhere (image : Image) (rva : UInt32) : Prop :=
  (∀ header ∈ image.sections.headers, header.contains rva = false) ∨
    ∃ offset, image.fileOffset? rva = some offset ∧ image.file.size ≤ offset

/-- A table of which the file does not have the first `least` bytes. -/
inductive Lacks (image : Image) (key : DirectoryKey) (least : Nat) : Prop
  | undeclared (h : image.optional.directory? key = none)
  | outside {range : DirectoryRange} (hrange : image.optional.directory? key = some range)
      (h : ∀ header ∈ image.sections.headers, header.contains range.address = false)
  | short {range : DirectoryRange} {offset : Nat}
      (hrange : image.optional.directory? key = some range)
      (hoffset : image.fileOffset? range.address = some offset)
      (h : min range.size.toNat (image.file.size - offset) < least)

/-- The array of addresses that an export directory at an offset asks for leads nowhere. -/
def LacksAddresses (image : Image) (limits : Limits) (offset : Nat) : Prop :=
  0 < min (image.file.u32 (offset + 20)).toNat limits.exports ∧
    image.LeadsNowhere (image.file.u32 (offset + 28))

/-- The name of a library among the given ones leads nowhere, or no byte of it may be read. -/
def LacksName (image : Image) (limits : Limits) (descriptors : List ImportDescriptor) : Prop :=
  (∃ descriptor ∈ descriptors, image.LeadsNowhere descriptor.nameRva) ∨
    limits.stringLength = 0 ∧ descriptors ≠ []

/-- An address has no offset exactly when no section has it. -/
theorem fileOffset?_eq_none (image : Image) (rva : UInt32) :
    image.fileOffset? rva = none ↔
      ∀ header ∈ image.sections.headers, header.contains rva = false := by
  simp only [fileOffset?, Option.map_eq_none_iff, SectionTable.byRva?, List.find?_eq_none,
    Bool.not_eq_true]

/-- An address that leads nowhere is one that does not resolve. -/
theorem leadsNowhere_iff (image : Image) (rva : UInt32) :
    image.LeadsNowhere rva ↔ image.addressSpace.tail? rva = none := by
  rw [LeadsNowhere, ← fileOffset?_eq_none, AddressSpace.tail?, Option.map_eq_none_iff,
    AddressSpace.offset?]
  change _ ↔ (image.fileOffset? rva).filter (· < image.file.size) = none
  cases image.fileOffset? rva with
  | none => simp
  | some offset => simp

/-- A table lacks its first bytes exactly when it has no window that is long enough. -/
theorem lacks_iff (image : Image) (key : DirectoryKey) (least : Nat) :
    image.Lacks key least ↔ ∀ window, image.window? key = some window →
      window.data.size < least := by
  constructor
  · intro h window hwindow
    obtain ⟨range, offset, hrange, hoffset, rfl⟩ := (window?_eq_some ..).mp hwindow
    rw [Bytes.size_clip]
    cases h with
    | undeclared h => exact nomatch h.symm.trans hrange
    | outside hdeclared h =>
      obtain rfl := Option.some.inj (hdeclared.symm.trans hrange)
      exact nomatch ((fileOffset?_eq_none ..).mpr h).symm.trans hoffset
    | short hdeclared hplace h =>
      obtain rfl := Option.some.inj (hdeclared.symm.trans hrange)
      obtain rfl := Option.some.inj (hplace.symm.trans hoffset)
      exact h
  · intro h
    cases hrange : image.optional.directory? key with
    | none => exact .undeclared hrange
    | some range =>
      cases hoffset : image.fileOffset? range.address with
      | none => exact .outside hrange ((fileOffset?_eq_none ..).mp hoffset)
      | some offset =>
        have hshort := h _ ((window?_eq_some ..).mpr ⟨range, offset, hrange, hoffset, rfl⟩)
        rw [Bytes.size_clip] at hshort
        exact .short hrange hoffset hshort

/-- A table is absent exactly when it has no window from which it is read. -/
theorem table?_eq_none {α : Type} (image : Image) (key : DirectoryKey)
    (read : DirectoryWindow → Except Fault α) :
    image.table? key read = none ↔
      ∀ window, image.window? key = some window → ¬ ∃ table, read window = .ok table := by
  unfold table?
  cases image.window? key with
  | none => simp
  | some window =>
    cases hread : read window with
    | error fault => simp [hread, Except.toOption]
    | ok table => simp [hread, Except.toOption]

/-- A table that is read from no short window is absent where it lacks its first bytes, and where
reading it from a window that has them fails. -/
theorem table?_eq_none_iff_lacks {α : Type} (image : Image) (key : DirectoryKey) (least : Nat)
    {read : DirectoryWindow → Except Fault α} {Broken : DirectoryRange → Nat → Prop}
    (hshort : ∀ window, window.data.size < least → ¬ ∃ table, read window = .ok table)
    (hbroken : ∀ range offset, least ≤ (image.file.clip offset range.size.toNat).size →
      ((¬ ∃ table, read ⟨range.address, image.file.clip offset range.size.toNat⟩ = .ok table) ↔
        Broken range offset)) :
    image.table? key read = none ↔ image.Lacks key least ∨
      ∃ range offset, image.optional.directory? key = some range ∧
        image.fileOffset? range.address = some offset ∧ Broken range offset := by
  rw [table?_eq_none]
  by_cases hlacks : image.Lacks key least
  · refine iff_of_true (fun window hwindow => ?_) (Or.inl hlacks)
    exact hshort window ((lacks_iff ..).mp hlacks window hwindow)
  · have hlong (range : DirectoryRange) (offset : Nat)
        (hrange : image.optional.directory? key = some range)
        (hoffset : image.fileOffset? range.address = some offset) :
        least ≤ (image.file.clip offset range.size.toNat).size := by
      by_contra hcut
      rw [Nat.not_le, Bytes.size_clip] at hcut
      exact hlacks (.short hrange hoffset hcut)
    rw [or_iff_right hlacks]
    constructor
    · intro h
      have hwindow : ∃ window, image.window? key = some window := by
        by_contra hnone
        refine hlacks ((lacks_iff ..).mpr fun window hwindow => ?_)
        exact absurd ⟨window, hwindow⟩ hnone
      obtain ⟨window, hwindow⟩ := hwindow
      obtain ⟨range, offset, hrange, hoffset, rfl⟩ := (window?_eq_some ..).mp hwindow
      exact ⟨range, offset, hrange, hoffset,
        (hbroken range offset (hlong range offset hrange hoffset)).mp (h _ hwindow)⟩
    · rintro ⟨range, offset, hrange, hoffset, h⟩ window hwindow
      obtain ⟨other, place, hother, hplace, rfl⟩ := (window?_eq_some ..).mp hwindow
      obtain rfl : range = other := Option.some.inj (hrange.symm.trans hother)
      obtain rfl : offset = place := Option.some.inj (hoffset.symm.trans hplace)
      exact (hbroken range offset (hlong range offset hrange hoffset)).mpr h

end Image

/-- A string is read at an address exactly when the address resolves and the cap lets a byte be
seen. -/
theorem AddressSpace.exists_text_eq_ok (space : AddressSpace) (rva : UInt32) (cap : Nat) :
    (∃ text, space.text rva cap = .ok text) ↔ 0 < cap ∧ (space.tail? rva).isSome := by
  simp only [text_eq_ok, exists_and_left, Option.isSome_iff_exists]
  refine and_congr_right fun _ => ?_
  constructor
  · rintro ⟨_, tail, htail, _⟩
    exact ⟨tail, htail⟩
  · rintro ⟨tail, htail⟩
    exact ⟨_, tail, htail, rfl⟩

namespace ImportTable

/-- Libraries are read exactly when all of their names are, whatever the budget. -/
theorem exists_readLibraries_eq_ok (space : AddressSpace) (limits : Limits) (budget : Nat)
    (descriptors : List ImportDescriptor) :
    (∃ libraries, readLibraries space limits budget descriptors = .ok libraries) ↔
      ∀ descriptor ∈ descriptors,
        ∃ name, space.text descriptor.nameRva limits.stringLength = .ok name := by
  induction descriptors generalizing budget with
  | nil => simp [readLibraries]
  | cons descriptor rest ih =>
    simp only [readLibraries, bind_eq_ok, List.forall_mem_cons]
    constructor
    · rintro ⟨_, name, hname, others, hothers, _⟩
      exact ⟨⟨name, hname⟩, (ih _).mp ⟨others, hothers⟩⟩
    · rintro ⟨⟨name, hname⟩, hrest⟩
      obtain ⟨others, hothers⟩ := (ih _).mpr hrest
      exact ⟨_, name, hname, others, hothers, rfl⟩

/-- An import table is read exactly when there is room for a descriptor and the names of all
libraries are read. -/
theorem exists_read_eq_ok (window : DirectoryWindow) (space : AddressSpace) (limits : Limits) :
    (∃ table, read window space limits = .ok table) ↔
      ImportDescriptor.byteSize ≤ window.data.size ∧
        ∀ descriptor ∈ ImportDescriptor.list window.data limits.importDescriptors,
          0 < limits.stringLength ∧ (space.tail? descriptor.nameRva).isSome := by
  simp only [← AddressSpace.exists_text_eq_ok]
  rw [← exists_readLibraries_eq_ok space limits limits.importEntries, read_eq]
  split
  · rename_i hshort
    exact iff_of_false (fun h => nomatch h.choose_spec) fun h => Nat.not_lt.mpr h.1 hshort
  · rename_i hlong
    rw [and_iff_right (Nat.not_lt.mp hlong)]
    cases readLibraries space limits limits.importEntries
      (ImportDescriptor.list window.data limits.importDescriptors) with
    | error fault =>
      exact iff_of_false (fun h => nomatch h.choose_spec) fun h => nomatch h.choose_spec
    | ok libraries => exact iff_of_true ⟨_, rfl⟩ ⟨_, rfl⟩

end ImportTable

namespace Image

/-- An export table whose fixed part is there is broken exactly when it lacks its addresses. -/
theorem not_exists_exports_iff (image : Image) (limits : Limits) (rva : UInt32)
    {offset size : Nat} (hsize : 40 ≤ (image.file.clip offset size).size) :
    (¬ ∃ table, ExportTable.read ⟨rva, image.file.clip offset size⟩ image.addressSpace limits =
      .ok table) ↔ image.LacksAddresses limits offset := by
  have hword {place : Nat} (hplace : place + 4 ≤ 40) :
      (image.file.clip offset size).u32 place = image.file.u32 (offset + place) := by
    rw [Bytes.size_clip] at hsize
    rw [Bytes.u32, Bytes.u32, Bytes.natAt_clip _ _ (by omega)]
  rw [ExportTable.exists_read_eq_ok, and_iff_right hsize, ← ExportDirectory.read_eq_ofOctets,
    not_or, LacksAddresses, leadsNowhere_iff, ← hword (by decide), ← hword (by decide),
    Nat.pos_iff_ne_zero, Bool.not_eq_true, Option.isSome_eq_false_iff, Option.isNone_iff_eq_none]
  rfl

/-- An import table with room for a descriptor is broken exactly when it lacks a name. -/
theorem not_exists_imports_iff (image : Image) (limits : Limits) (window : DirectoryWindow)
    (hsize : 20 ≤ window.data.size) :
    (¬ ∃ table, ImportTable.read window image.addressSpace limits = .ok table) ↔
      image.LacksName limits
        ((ImportDescriptor.stored window.data).take limits.importDescriptors) := by
  rw [ImportTable.exists_read_eq_ok, ImportDescriptor.byteSize, and_iff_right hsize,
    ImportDescriptor.list_eq_take, LacksName]
  generalize (ImportDescriptor.stored window.data).take limits.importDescriptors = descriptors
  constructor
  · intro h
    obtain ⟨descriptor, hmem, hname⟩ := by simpa only [not_forall, exists_prop] using h
    rcases Nat.eq_zero_or_pos limits.stringLength with hcap | hcap
    · exact Or.inr ⟨hcap, List.ne_nil_of_mem hmem⟩
    · refine Or.inl ⟨descriptor, hmem, (leadsNowhere_iff ..).mpr ?_⟩
      exact Option.not_isSome_iff_eq_none.mp fun hsome => hname ⟨hcap, hsome⟩
  · rintro (⟨descriptor, hmem, hname⟩ | ⟨hcap, hdescriptors⟩) h
    · have hsome := (h descriptor hmem).2
      rw [(leadsNowhere_iff ..).mp hname] at hsome
      exact Bool.false_ne_true hsome
    · obtain ⟨descriptor, hmem⟩ := List.exists_mem_of_ne_nil _ hdescriptors
      exact absurd (h descriptor hmem).1 (Nat.not_lt.mpr (Nat.le_of_eq hcap))

/-- The reasons for which an image has no export table, and no import table. Where none of them
holds there is a table, whatever else is wrong with what it points to. -/
theorem tables_absent_iff (image : Image) (limits : Limits) :
    (image.exports? limits = none ↔ image.Lacks .exportTable 40 ∨
      ∃ range offset, image.optional.directory? .exportTable = some range ∧
        image.fileOffset? range.address = some offset ∧ image.LacksAddresses limits offset) ∧
    (image.imports? limits = none ↔ image.Lacks .importTable 20 ∨
      ∃ range offset, image.optional.directory? .importTable = some range ∧
        image.fileOffset? range.address = some offset ∧
        image.LacksName limits
          ((ImportDescriptor.stored (image.file.clip offset range.size.toNat)).take
            limits.importDescriptors)) := by
  constructor
  · refine image.table?_eq_none_iff_lacks .exportTable 40 (fun window hshort => ?_)
      fun range offset => image.not_exists_exports_iff limits range.address
    rw [ExportTable.exists_read_eq_ok]
    exact fun h => Nat.not_lt.mpr h.1 hshort
  · refine image.table?_eq_none_iff_lacks .importTable 20 (fun window hshort => ?_)
      fun range offset => image.not_exists_imports_iff limits ⟨range.address, _⟩
    rw [ImportTable.exists_read_eq_ok]
    exact fun h => Nat.not_lt.mpr h.1 hshort

end Image

end PeImage
