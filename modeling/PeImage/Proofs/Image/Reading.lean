import PeImage.Image.Content
import PeImage.Proofs.Image.Translation

/-!
# Reading at an address

What an address leads to can be had in three ways: as a slice of a length that is asked for, as the
window of a table that is declared there, and as the rest of the section that contains it. Each of
them clips by numbers of its own. All three are ranges of the one file that start at the offset of
the address, so they differ in their ends and never in a byte.
-/

namespace PeImage

namespace Bytes

/-- The bytes from one offset up to another. -/
def between (bytes : Bytes) (start stop : Nat) : List UInt8 := (bytes.octets.take stop).drop start

/-- A range has the bytes from its start on, as many as its end is away. -/
theorem between_eq_take (bytes : Bytes) (start stop : Nat) :
    bytes.between start stop = (bytes.octets.drop start).take (stop - start) := List.drop_take

/-- A range that lies inside has all of its bytes. -/
theorem length_between (bytes : Bytes) {start stop : Nat} (h : stop ≤ bytes.size) :
    (bytes.between start stop).length = stop - start := by
  rw [between, List.length_drop, List.length_take, length_octets, Nat.min_eq_left h]

/-- Ranges with the same start begin with the same bytes. -/
theorem between_prefix (bytes : Bytes) (start : Nat) {stop later : Nat} (h : stop ≤ later) :
    bytes.between start stop <+: bytes.between start later := by
  rw [between_eq_take, between_eq_take]
  exact List.take_prefix_take_left (Nat.sub_le_sub_right h start)

/-- A clipped part is a range that ends with the bytes at the latest. -/
theorem octets_clip_eq_between (bytes : Bytes) (offset length : Nat) :
    (bytes.clip offset length).octets =
      bytes.between offset (min (offset + length) bytes.size) := by
  rw [octets_clip, between_eq_take, List.take_eq_take_iff, List.length_drop, length_octets]
  omega

/-- A part that starts behind the bytes is empty. -/
theorem clip_of_size_le {bytes : Bytes} {offset : Nat} (h : bytes.size ≤ offset) (length : Nat) :
    bytes.clip offset length = .empty := by
  apply ext_octets
  rw [octets_clip, List.drop_of_length_le (by rwa [length_octets]), List.take_nil]
  rfl

end Bytes

namespace Image

/-- A slice is the range from the offset of the address on, as long as asked for or as the file
has. -/
theorem slice?_eq_some (image : Image) (rva : UInt32) (length : Nat) (data : Bytes) :
    image.addressSpace.slice? rva length = some data ↔
      ∃ offset, image.fileOffset? rva = some offset ∧ offset < image.file.size ∧
        data.octets = image.file.between offset (min (offset + length) image.file.size) := by
  rw [AddressSpace.slice?, AddressSpace.offset?, Option.map_eq_some_iff]
  refine exists_congr fun offset => ?_
  rw [Option.filter_eq_some_iff, decide_eq_true_iff, and_assoc]
  refine and_congr_right fun _ => and_congr_right fun _ => ?_
  rw [← Bytes.octets_clip_eq_between]
  exact ⟨fun h => h ▸ rfl, fun h => (Bytes.ext_octets h).symm⟩

/-- The window of a table is clipped from the offset of its address on. -/
theorem window?_eq_some (image : Image) (key : DirectoryKey) (window : DirectoryWindow) :
    image.window? key = some window ↔
      ∃ range offset, image.optional.directory? key = some range ∧
        image.fileOffset? range.address = some offset ∧
        window = ⟨range.address, image.file.clip offset range.size.toNat⟩ := by
  simp only [window?, Option.bind_eq_bind, Option.bind_eq_some_iff, Option.some.injEq,
    exists_and_left, eq_comm (a := window)]

/-- A table has a window exactly where it has an offset. -/
theorem isSome_window? (image : Image) (key : DirectoryKey) :
    (image.window? key).isSome = (image.fileOffsetFor? key).isSome := by
  simp only [window?, fileOffsetFor?, Option.bind_eq_bind]
  cases image.optional.directory? key with
  | none => rfl
  | some range =>
    rw [Option.bind_some, Option.bind_some]
    cases image.fileOffset? range.address <;> rfl

/-- The window of a table is the slice at its address, empty where there is none. -/
theorem window?_eq_slice? {image : Image} {key : DirectoryKey} {range : DirectoryRange}
    {window : DirectoryWindow} (hrange : image.optional.directory? key = some range)
    (h : image.window? key = some window) :
    window.rva = range.address ∧
      window.data = (image.addressSpace.slice? range.address range.size.toNat).getD .empty := by
  obtain ⟨declared, offset, hdeclared, hoffset, rfl⟩ := (window?_eq_some ..).mp h
  obtain rfl : declared = range := Option.some.inj (hdeclared.symm.trans hrange)
  have hplace : image.addressSpace.place? declared.address = some offset := hoffset
  refine ⟨rfl, ?_⟩
  rw [AddressSpace.slice?, AddressSpace.offset?, hplace, Option.filter_some]
  split
  · rfl
  · rename_i hpast
    rw [decide_eq_true_iff, Nat.not_lt] at hpast
    exact Bytes.clip_of_size_le hpast _

/-- The bytes of a section that are in the file are no more than follow its start. -/
theorem readSize_le (image : Image) (header : SectionHeader) :
    image.readSize header ≤ image.file.size - header.rawPointer.toNat := by
  unfold readSize
  split <;> omega

/-- What a section has from an address on is the range up to the end of its bytes in the file. -/
theorem dataAt?_of_lt_readSize {image : Image} {header : SectionHeader} {rva : UInt32}
    (h : image.sections.byRva? rva = some header)
    (hstored : rva.toNat - header.virtualAddress.toNat < image.readSize header) :
    ∃ part, (image.contentAt? rva).bind (·.dataAt? rva) = some part ∧
      part.octets = image.file.between
        (header.rawPointer.toNat + (rva.toNat - header.virtualAddress.toNat))
        (header.rawPointer.toNat + image.readSize header) := by
  have hstart : header.virtualAddress ≤ rva := by
    have hcontains := (SectionTable.byRva?_eq_some_iff.mp h).1
    rw [SectionHeader.contains, Bool.and_eq_true, decide_eq_true_iff] at hcontains
    exact hcontains.1
  have hsize : (image.content header).data.size = image.readSize header := by
    rw [content, Bytes.size_clip, Nat.min_eq_left (image.readSize_le header)]
  rw [contentAt?, h, Option.map_some, Option.bind_some, SectionContent.dataAt?, hsize,
    if_pos ⟨hstart, Nat.le_of_lt hstored⟩]
  refine ⟨_, rfl, ?_⟩
  rw [content, Bytes.octets_clip, Bytes.octets_clip, Bytes.between_eq_take, List.drop_take,
    List.drop_drop, List.take_take, Nat.add_sub_add_left]
  congr 1
  exact Nat.min_eq_right (Nat.sub_le _ _)

/-- Every way of reading at an address gives a range of the file from the offset of the address on.
A slice is there when the offset is inside the file, and a longer one begins with it. The window of
a table is there when the table has an offset, and it is the slice of the declared size, or empty
where there is no slice. From an address that its section has in the file, the rest of the section
is not empty, and it has the same bytes as a slice as far as both go. -/
theorem readings_agree (image : Image) :
    (∀ rva length data, image.addressSpace.slice? rva length = some data ↔
      ∃ offset, image.fileOffset? rva = some offset ∧ offset < image.file.size ∧
        data.octets = image.file.between offset (min (offset + length) image.file.size)) ∧
    (∀ rva length longer data, length ≤ longer →
      image.addressSpace.slice? rva length = some data →
        ∃ more, image.addressSpace.slice? rva longer = some more ∧
          data.octets <+: more.octets) ∧
    (∀ key range, image.optional.directory? key = some range →
      (image.window? key).isSome = (image.fileOffsetFor? key).isSome ∧
        ∀ window, image.window? key = some window →
          window.data =
            (image.addressSpace.slice? range.address range.size.toNat).getD .empty) ∧
    ∀ rva header, image.sections.byRva? rva = some header → header.rawPointer ≠ 0 →
      rva.toNat - header.virtualAddress.toNat < image.readSize header →
        ∃ offset part, image.fileOffset? rva = some offset ∧
          (image.contentAt? rva).bind (·.dataAt? rva) = some part ∧
          part.octets =
            image.file.between offset (header.rawPointer.toNat + image.readSize header) ∧
          part.octets ≠ [] ∧
          ∀ length, ∃ data, image.addressSpace.slice? rva length = some data ∧
            ∀ i < min length (image.readSize header - (rva.toNat - header.virtualAddress.toNat)),
              ∃ byte, data.octets[i]? = some byte ∧ part.octets[i]? = some byte := by
  refine ⟨image.slice?_eq_some, ?_, ?_, ?_⟩
  · intro rva length longer data hlength h
    obtain ⟨offset, hoffset, hinside, hdata⟩ := (slice?_eq_some ..).mp h
    refine ⟨image.file.clip offset longer, ?_, ?_⟩
    · exact (slice?_eq_some ..).mpr
        ⟨offset, hoffset, hinside, Bytes.octets_clip_eq_between _ _ _⟩
    · rw [hdata, Bytes.octets_clip_eq_between]
      exact Bytes.between_prefix _ _ (by omega)
  · intro key range hrange
    exact ⟨image.isSome_window? key, fun window h => (window?_eq_slice? hrange h).2⟩
  · intro rva header h _ hstored
    have hoffset := fileOffset?_of_byRva? h
    have hinside := rawPointer_add_lt_size hstored
    have hread := image.readSize_le header
    obtain ⟨part, hpart, hbytes⟩ := dataAt?_of_lt_readSize h hstored
    generalize rva.toNat - header.virtualAddress.toNat = distance at *
    refine ⟨_, part, hoffset, hpart, hbytes, ?_, fun length => ?_⟩
    · refine List.ne_nil_of_length_pos ?_
      rw [hbytes, Bytes.length_between _ (by omega)]
      omega
    · have hslice := (slice?_eq_some image rva length (image.file.clip _ length)).mpr
        ⟨_, hoffset, hinside, Bytes.octets_clip_eq_between _ _ _⟩
      refine ⟨_, hslice, fun i hi => ?_⟩
      have hbyte : header.rawPointer.toNat + distance + i < image.file.octets.length := by
        rw [Bytes.length_octets]
        omega
      refine ⟨image.file.octets[header.rawPointer.toNat + distance + i], ?_, ?_⟩
      · rw [Bytes.octets_clip, List.getElem?_take_of_lt (by omega), List.getElem?_drop,
          List.getElem?_eq_getElem hbyte]
      · rw [hbytes, Bytes.between_eq_take, List.getElem?_take_of_lt (by omega),
          List.getElem?_drop, List.getElem?_eq_getElem hbyte]

/-- A file of 48 bytes that count up, in which a section declares twice as many bytes as it has, and
a table in it more than there are. -/
def cutSection : Image :=
  .ofParts (.ofOctets ((List.range 0x30).map UInt8.ofNat))
    ⟨[.ofValues ".data" 1 0x2000 0x40 0x20 0x20 0]⟩
    (OptionalHeader.withDirectory {} .debug ⟨0x2004, 0x100⟩)

/-- The last twelve bytes of a file as a slice that asks for more, as the window of a table and as
the rest of a section, with a slice of the first two of them. -/
theorem readings_agree_cutSection :
    (∃ more, cutSection.addressSpace.slice? 0x2004 0x100 = some more ∧
      (cutSection.file.clip 0x24 2).octets <+: more.octets) ∧
    cutSection.file.clip 0x24 0x100 =
      (cutSection.addressSpace.slice? 0x2004 0x100).getD .empty ∧
    ∃ part, (cutSection.contentAt? 0x2004).bind (·.dataAt? 0x2004) = some part ∧
      part.octets = (List.range' 0x24 12).map UInt8.ofNat ∧
      ∃ byte, (cutSection.file.clip 0x24 2).octets[1]? = some byte ∧
        part.octets[1]? = some byte := by
  obtain ⟨_, hlonger, hwindow, hcontent⟩ := readings_agree cutSection
  have hdeclared : cutSection.optional.directory? .debug = some ⟨0x2004, 0x100⟩ := by decide
  have hsection : cutSection.sections.byRva? 0x2004 =
      some (.ofValues ".data" 1 0x2000 0x40 0x20 0x20 0) := by decide
  have hshort : cutSection.addressSpace.slice? 0x2004 2 = some (cutSection.file.clip 0x24 2) := rfl
  have hdebug : cutSection.window? .debug = some ⟨0x2004, cutSection.file.clip 0x24 0x100⟩ := rfl
  obtain ⟨offset, part, hoffset, hpart, hbytes, _, hsame⟩ :=
    hcontent 0x2004 _ hsection (by decide) (by decide)
  obtain rfl : offset = 0x24 := Option.some.inj (hoffset.symm.trans (by decide))
  obtain ⟨data, hdata, hcommon⟩ := hsame 2
  obtain rfl := Option.some.inj (hdata.symm.trans hshort)
  exact ⟨hlonger _ _ 0x100 _ (by decide) hshort, (hwindow _ _ hdeclared).2 _ hdebug, part, hpart,
    hbytes.trans (by decide), hcommon 1 (by decide)⟩

end Image

end PeImage
