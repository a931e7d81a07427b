import PeImage.Image.Content
import PeImage.Proofs.Bytes.Part
import PeImage.Proofs.Checked.Cursor

/-!
# Addresses and contents with checked steps

Translation and lookup in the sections of an image, and the slices of its file. Nothing about the
headers is assumed. A sum of two 32-bit fields stays a word; an address is taken apart only after
its section was found to contain it; and a range is clipped to the file before it is cut out, so
that cutting it out cannot fail whatever the header says. The size of the file is a word, which is
all that these facts need.
-/

namespace PeImage.Checked

/-- Whether an address lies in a section. -/
def contains (header : SectionHeader) (rva : UInt32) : Checked Bool := do
  let stop ← add header.virtualAddress.toNat header.extent.toNat
  return header.virtualAddress ≤ rva && rva.toNat < stop

/-- The first section that an address lies in. -/
def byRva? (table : SectionTable) (rva : UInt32) : Checked (Option SectionHeader) :=
  table.headers.findM? (contains · rva)

/-- The section at a position, counted from one. -/
def byNumber (table : SectionTable) (number : Nat) : Checked SectionHeader :=
  match (sub? number 1).bind (table.headers[·]?) with
  | some header => .ok header
  | none => refuse (.noSectionNumbered number table.size)

/-- The file offset of an address. -/
def fileOffset? (image : Image) (rva : UInt32) : Checked (Option Nat) := do
  match ← byRva? image.sections rva with
  | none => return none
  | some header =>
    let distance ← sub rva.toNat header.virtualAddress.toNat
    return some (← add header.rawPointer.toNat distance)

/-- What is found for a declared table, if it is declared. -/
def forDirectory? {α : Type} (image : Image) (key : DirectoryKey)
    (find : DirectoryRange → Checked (Option α)) : Checked (Option α) :=
  match image.optional.directory? key with
  | none => .ok none
  | some range => find range

/-- The file offset at which a declared table starts. -/
def fileOffsetFor? (image : Image) (key : DirectoryKey) : Checked (Option Nat) :=
  forDirectory? image key fun range => fileOffset? image range.address

/-- The section that a declared table starts in. -/
def sectionFor? (image : Image) (key : DirectoryKey) : Checked (Option SectionHeader) :=
  forDirectory? image key fun range => byRva? image.sections range.address

/-- The file offset of an absolute address. -/
def fileOffsetOfAbsolute? (image : Image) (address : UInt64) : Checked (Option Nat) :=
  match sub? address.toNat image.optional.imageBase.toNat with
  | none => .ok none
  | some distance =>
    if distance < UInt32.size then fileOffset? image (UInt32.ofNat distance) else .ok none

/-- The address at which a section maps the byte at a file offset, if it does. -/
def rvaIn? (image : Image) (header : SectionHeader) (offset : Nat) : Checked (Option UInt32) :=
  if header.rawPointer = 0 then .ok none
  else
    match sub? offset header.rawPointer.toNat with
    | none => .ok none
    | some distance =>
      if image.readSize header ≤ distance ∨ header.extent.toNat ≤ distance then .ok none
      else do
        let rva ← add header.virtualAddress.toNat distance
        return if rva < UInt32.size then some (UInt32.ofNat rva) else none

/-- The address of the byte at a file offset. -/
def rvaOfOffset? (image : Image) (offset : Nat) : Checked (Option UInt32) :=
  image.sections.headers.findSomeM? (rvaIn? image · offset)

/-- The `length` bytes from an offset on, if the range is one and inside. -/
def strictSlice? (data : Bytes) (offset length : Nat) : Option Bytes :=
  match add? offset length with
  | none => none
  | some stop =>
    if offset ≤ stop ∧ stop ≤ data.size then some (data.clip offset (stop - offset)) else none

/-- The part of the `length` bytes from an offset on that lies inside. What is left after clipping
is taken to be a range of words, and to be inside. -/
def clippedSlice (data : Bytes) (offset length : Nat) : Checked Bytes :=
  let inside := min length (data.size - offset)
  if inside = 0 then .ok .empty
  else if offset ≤ Limits.largest ∧ inside ≤ Limits.largest then
    match strictSlice? data offset inside with
    | some part => .ok part
    | none => trap .unreachable
  else trap .unreachable

/-- The content of a section. -/
def content (image : Image) (header : SectionHeader) : Checked SectionContent := do
  let data ← clippedSlice image.file header.rawPointer.toNat (image.readSize header)
  return ⟨header, data⟩

/-- The content of a section that may have been found. -/
def contentOf? (image : Image) (found : Option SectionHeader) : Checked (Option SectionContent) :=
  match found with
  | none => .ok none
  | some header => return some (← content image header)

/-- The bytes of a declared table that are in the file. -/
def window? (image : Image) (key : DirectoryKey) : Checked (Option DirectoryWindow) :=
  forDirectory? image key fun range => do
    match ← fileOffset? image range.address with
    | none => return none
    | some offset =>
      let data ← clippedSlice image.file offset range.size.toNat
      return some ⟨range.address, data⟩

/-- The bytes from an address on, at most `length` of them. -/
def slice? (image : Image) (rva : UInt32) (length : Nat) : Checked (Option Bytes) := do
  match ← fileOffset? image rva with
  | none => return none
  | some offset =>
    if image.file.size ≤ offset then return none
    return some (← clippedSlice image.file offset length)

/-- Containment needs no trap: the end of a section is a word. -/
theorem contains_eq (header : SectionHeader) (rva : UInt32) :
    contains header rva = .ok (header.contains rva) := by
  rw [contains, add_eq (toNat_add_toNat_le_largest _ _)]
  rfl

/-- The section of an address is found without a trap. -/
theorem byRva?_eq (table : SectionTable) (rva : UInt32) :
    byRva? table rva = .ok (table.byRva? rva) :=
  findM?_eq _ _ (contains_eq · rva) table.headers

/-- The section at a position is found, or refused, without a trap. -/
theorem byNumber_eq (table : SectionTable) (number : Nat) :
    byNumber table number = ofResult (table.byNumber number) := by
  cases number with
  | zero => rfl
  | succ index =>
    rw [byNumber, sub?_of_le (Nat.le_add_left 1 index), Nat.add_sub_cancel, Option.bind_some, SectionTable.byNumber]
    cases table.headers[index]? <;> rfl

/-- An address is not before the section it was found in, so its distance from there is a number. -/
theorem fileOffset?_eq (image : Image) (rva : UInt32) :
    fileOffset? image rva = .ok (image.fileOffset? rva) := by
  rw [fileOffset?, byRva?_eq, ok_bind, Image.fileOffset?]
  cases hfound : image.sections.byRva? rva with
  | none => rfl
  | some header =>
    have hcontains : header.contains rva = true := by
      rw [SectionTable.byRva?, List.find?_eq_some_iff_append] at hfound
      exact hfound.1
    have hstart : header.virtualAddress.toNat ≤ rva.toNat := by
      rw [SectionHeader.contains, Bool.and_eq_true, decide_eq_true_iff] at hcontains
      exact UInt32.le_iff_toNat_le.mp hcontains.1
    have hoffset : header.rawPointer.toNat + (rva.toNat - header.virtualAddress.toNat) ≤
        Limits.largest := by
      have hbound := toNat_add_toNat_le_largest header.rawPointer rva
      omega
    dsimp only
    rw [sub_eq hstart, ok_bind, add_eq hoffset]
    rfl

/-- What is found for a declared table without a trap is what is found exactly. -/
theorem forDirectory?_eq {α : Type} (image : Image) (key : DirectoryKey)
    {find : DirectoryRange → Checked (Option α)} {exact : DirectoryRange → Option α}
    (h : ∀ range, find range = .ok (exact range)) :
    forDirectory? image key find = .ok ((image.optional.directory? key).bind exact) := by
  unfold forDirectory?
  cases image.optional.directory? key with
  | none => rfl
  | some range => exact h range

/-- The start of a declared table is translated without a trap. -/
theorem fileOffsetFor?_eq (image : Image) (key : DirectoryKey) :
    fileOffsetFor? image key = .ok (image.fileOffsetFor? key) :=
  forDirectory?_eq image key fun range => fileOffset?_eq image range.address

/-- The section of a declared table is found without a trap. -/
theorem sectionFor?_eq (image : Image) (key : DirectoryKey) :
    sectionFor? image key = .ok (image.sectionFor? key) :=
  forDirectory?_eq image key fun range => byRva?_eq image.sections range.address

/-- Absolute addresses are translated without a trap. -/
theorem fileOffsetOfAbsolute?_eq (image : Image) (address : UInt64) :
    fileOffsetOfAbsolute? image address = .ok (image.fileOffsetOfAbsolute? address) := by
  unfold fileOffsetOfAbsolute? Image.fileOffsetOfAbsolute?
  dsimp only
  by_cases hbase : image.optional.imageBase ≤ address
  · rw [sub?_of_le (UInt64.le_iff_toNat_le.mp hbase)]
    dsimp only
    by_cases hdistance : address.toNat - image.optional.imageBase.toNat < UInt32.size
    · rw [if_pos hdistance, if_pos ⟨hbase, hdistance⟩, fileOffset?_eq]
    · rw [if_neg hdistance, if_neg fun h => hdistance h.2]
  · have hbelow : address.toNat < image.optional.imageBase.toNat :=
      Nat.lt_of_not_le fun h => hbase (UInt64.le_iff_toNat_le.mpr h)
    rw [sub?_of_lt hbelow, if_neg fun h => hbase h.1]

/-- A section maps no byte past its extent, so the address of a byte is a word. -/
theorem rvaIn?_eq (image : Image) (header : SectionHeader) (offset : Nat) :
    rvaIn? image header offset = .ok (image.rvaIn? header offset) := by
  unfold rvaIn? Image.rvaIn?
  dsimp only
  by_cases hpointer : header.rawPointer = 0
  · rw [if_pos hpointer, if_neg fun h => h.1 hpointer]
  · rw [if_neg hpointer]
    by_cases hstart : header.rawPointer.toNat ≤ offset
    · rw [sub?_of_le hstart]
      dsimp only
      by_cases hmapped : image.readSize header ≤ offset - header.rawPointer.toNat ∨
          header.extent.toNat ≤ offset - header.rawPointer.toNat
      · rw [if_pos hmapped, if_neg fun h => by omega]
      · have hword : header.virtualAddress.toNat + (offset - header.rawPointer.toNat) ≤
            Limits.largest := by
          have hbound := toNat_add_toNat_le_largest header.virtualAddress header.extent
          omega
        rw [if_neg hmapped, add_eq hword, ok_bind]
        by_cases hrva :
            header.virtualAddress.toNat + (offset - header.rawPointer.toNat) < UInt32.size
        · rw [if_pos hrva, if_pos ⟨hpointer, hstart, by omega, by omega, hrva⟩]
          rfl
        · rw [if_neg hrva, if_neg fun h => hrva h.2.2.2.2]
          rfl
    · rw [sub?_of_lt (Nat.lt_of_not_le hstart), if_neg fun h => hstart h.2.1]

/-- File offsets are translated without a trap. -/
theorem rvaOfOffset?_eq (image : Image) (offset : Nat) :
    rvaOfOffset? image offset = .ok (image.rvaOfOffset? offset) :=
  findSomeM?_eq _ _ (rvaIn?_eq image · offset) image.sections.headers

/-- A strict slice is there when the range is inside. -/
theorem strictSlice?_eq (data : Bytes) (hsize : data.size ≤ Limits.largest) (offset length : Nat) :
    strictSlice? data offset length = data.slice? offset length := by
  unfold strictSlice? add? Bytes.slice?
  by_cases hinside : offset + length ≤ data.size
  · rw [if_pos (Nat.le_trans hinside hsize), if_pos hinside]
    dsimp only
    rw [if_pos ⟨Nat.le_add_right _ _, hinside⟩, Nat.add_sub_cancel_left]
  · rw [if_neg hinside]
    split
    · rfl
    · rename_i hstop
      split at hstop
      · obtain rfl := Option.some.inj hstop
        exact if_neg fun h => hinside h.2
      · exact nomatch hstop

/-- A clipped range can be cut out, so the failures that clipping is taken to exclude do not come
up. -/
theorem clippedSlice_eq (data : Bytes) (hsize : data.size ≤ Limits.largest)
    (offset length : Nat) : clippedSlice data offset length = .ok (data.clip offset length) := by
  have hclip : data.clip offset (min length (data.size - offset)) = data.clip offset length := by
    apply Bytes.ext_octets
    rw [Bytes.octets_clip, Bytes.octets_clip, ← Bytes.length_octets, ← List.length_drop,
      ← List.take_eq_take_min]
  unfold clippedSlice
  dsimp only
  by_cases hnone : min length (data.size - offset) = 0
  · have hempty : data.clip offset 0 = .empty := Bytes.ext_octets (Bytes.octets_clip data offset 0)
    rw [if_pos hnone, ← hclip, hnone, hempty]
  · have hwords : offset ≤ Limits.largest ∧ min length (data.size - offset) ≤ Limits.largest := by
      omega
    have hinside : offset + min length (data.size - offset) ≤ data.size := by omega
    rw [if_neg hnone, if_pos hwords, strictSlice?_eq data hsize, Bytes.slice?, if_pos hinside,
      hclip]

section Contents

variable (image : Image) (hsize : image.file.size ≤ Limits.largest)

include hsize

/-- The content of a section is cut out without a trap. -/
theorem content_eq (header : SectionHeader) :
    content image header = .ok (image.content header) := by
  rw [content, clippedSlice_eq _ hsize]
  rfl

/-- The content of a section that may have been found is cut out without a trap. -/
theorem contentOf?_eq (found : Option SectionHeader) :
    contentOf? image found = .ok (found.map image.content) := by
  cases found with
  | none => rfl
  | some header =>
    rw [contentOf?, content_eq image hsize]
    rfl

/-- The window of a declared table is cut out without a trap. -/
theorem window?_eq (key : DirectoryKey) : window? image key = .ok (image.window? key) := by
  refine forDirectory?_eq image key fun range => ?_
  rw [fileOffset?_eq, ok_bind]
  cases image.fileOffset? range.address with
  | none => rfl
  | some offset =>
    dsimp only
    rw [clippedSlice_eq _ hsize]
    rfl

/-- The bytes of an address are cut out without a trap. -/
theorem slice?_eq (rva : UInt32) (length : Nat) :
    slice? image rva length = .ok (image.addressSpace.slice? rva length) := by
  rw [slice?, fileOffset?_eq, ok_bind, AddressSpace.slice?, AddressSpace.offset?]
  change _ = Except.ok (((image.fileOffset? rva).filter (· < image.file.size)).map
    (image.file.clip · length))
  cases image.fileOffset? rva with
  | none => rfl
  | some offset =>
    dsimp only
    split
    · rename_i hpast
      rw [Option.filter_some, if_neg (by simpa using hpast)]
      rfl
    · rename_i hinside
      rw [Option.filter_some, if_pos (by simpa using hinside), clippedSlice_eq _ hsize]
      rfl

end Contents

end PeImage.Checked
