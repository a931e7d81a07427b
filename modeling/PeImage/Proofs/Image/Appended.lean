import Mathlib.Data.List.Infix
import PeImage.Proofs.Image.Reading
import PeImage.Proofs.Image.TableOrder

/-!
# Bytes behind the end of a file

A file that is cut short lacks the end of what it declares, and a file with bytes behind its image
has more than it declares. Between the two, with the headers as they are, every read that was cut
grows by the bytes that were missing, and no other read changes. Addresses have the same offsets in
both files, since the size of the file plays no part in them. Offsets have the same addresses as far
as the shorter file goes: a section that has an offset in the longer file and not in the shorter one
has it behind the end of the shorter.
-/

namespace PeImage

/-- What is clipped from the start of longer bytes begins with what is clipped from it. -/
theorem Bytes.clip_append_prefix (bytes rest : Bytes) (offset : Nat) {length longer : Nat}
    (h : length ≤ longer) :
    (bytes.clip offset length).octets <+: ((bytes ++ rest).clip offset longer).octets := by
  have hwhole : bytes.octets <+: (bytes ++ rest).octets := by simp
  rw [octets_clip, octets_clip]
  exact ((hwhole.drop offset).take length).trans (List.take_prefix_take_left h)

namespace Image

/-- The image with more bytes behind its file. -/
def appended (image : Image) (rest : Bytes) : Image := { image with file := image.file ++ rest }

variable (image : Image) (rest : Bytes)

@[simp] theorem size_file_appended :
    (image.appended rest).file.size = image.file.size + rest.size := by
  rw [appended, ← Bytes.length_octets, Bytes.octets_append, List.length_append]
  rfl

/-- A longer file has no less of a section. -/
theorem readSize_le_appended (header : SectionHeader) :
    image.readSize header ≤ (image.appended rest).readSize header := by
  simp only [readSize, size_file_appended]
  split <;> omega

/-- What a longer file has of a section begins with what the shorter one has. -/
theorem content_prefix_appended (header : SectionHeader) :
    (image.content header).data.octets <+: ((image.appended rest).content header).data.octets :=
  image.file.clip_append_prefix rest _ (image.readSize_le_appended rest header)

/-- A slice of the longer file begins with that of the shorter one. -/
theorem slice?_appended {rva : UInt32} {length : Nat} {data : Bytes}
    (h : image.addressSpace.slice? rva length = some data) :
    ∃ more, (image.appended rest).addressSpace.slice? rva length = some more ∧
      data.octets <+: more.octets := by
  obtain ⟨offset, hoffset, hinside, hdata⟩ := (slice?_eq_some ..).mp h
  refine ⟨(image.file ++ rest).clip offset length, ?_, ?_⟩
  · refine (slice?_eq_some ..).mpr ⟨offset, hoffset, ?_, Bytes.octets_clip_eq_between _ _ _⟩
    rw [size_file_appended]
    exact Nat.lt_add_right _ hinside
  · rw [hdata, ← Bytes.octets_clip_eq_between]
    exact image.file.clip_append_prefix rest _ (le_refl _)

/-- The window of a table in the longer file is at the same address, and begins with the one in the
shorter file. -/
theorem window?_appended {key : DirectoryKey} {window : DirectoryWindow}
    (h : image.window? key = some window) :
    ∃ more, (image.appended rest).window? key = some more ∧ more.rva = window.rva ∧
      window.data.octets <+: more.data.octets := by
  obtain ⟨range, offset, hrange, hoffset, rfl⟩ := (window?_eq_some ..).mp h
  exact ⟨_, (window?_eq_some ..).mpr ⟨range, offset, hrange, hoffset, rfl⟩, rfl,
    image.file.clip_append_prefix rest _ (le_refl _)⟩

/-- The window of a table that has its declared size is the same in the longer file. -/
theorem window?_appended_of_whole {key : DirectoryKey} {range : DirectoryRange}
    {window : DirectoryWindow} (hrange : image.optional.directory? key = some range)
    (h : image.window? key = some window) (hwhole : window.data.size = range.size.toNat) :
    (image.appended rest).window? key = some window := by
  obtain ⟨declared, offset, hdeclared, hoffset, rfl⟩ := (window?_eq_some ..).mp h
  obtain rfl : declared = range := Option.some.inj (hdeclared.symm.trans hrange)
  have hstart := image.file.clip_append_prefix rest offset (le_refl declared.size.toNat)
  have hlength : ((image.file ++ rest).clip offset declared.size.toNat).octets.length ≤
      (image.file.clip offset declared.size.toNat).octets.length := by
    rw [Bytes.length_octets, Bytes.length_octets, hwhole, Bytes.size_clip]
    exact Nat.min_le_left _ _
  rw [Bytes.ext_octets (hstart.eq_of_length_le hlength)]
  exact (window?_eq_some ..).mpr ⟨declared, offset, hrange, hoffset, rfl⟩

/-- A section has an offset of the shorter file in both files or in neither. -/
theorem rvaIn?_appended {offset : Nat} (hinside : offset < image.file.size)
    (header : SectionHeader) :
    (image.appended rest).rvaIn? header offset = image.rvaIn? header offset := by
  have hread : offset - header.rawPointer.toNat < (image.appended rest).readSize header ∧
      header.rawPointer.toNat ≤ offset ↔
        offset - header.rawPointer.toNat < image.readSize header ∧
          header.rawPointer.toNat ≤ offset := by
    simp only [readSize, size_file_appended]
    split <;> omega
  simp only [rvaIn?]
  refine if_congr ?_ rfl rfl
  tauto

/-- An offset of the shorter file has the same address in the longer one. -/
theorem rvaOfOffset?_appended {offset : Nat} (hinside : offset < image.file.size) :
    (image.appended rest).rvaOfOffset? offset = image.rvaOfOffset? offset := by
  simp only [rvaOfOffset?, image.rvaIn?_appended rest hinside]
  rfl

/-- An offset behind the end of the file has no address. -/
theorem rvaOfOffset?_of_size_le {offset : Nat} (hpast : image.file.size ≤ offset) :
    image.rvaOfOffset? offset = none := by
  refine List.findSome?_eq_none_iff.mpr fun header _ => ?_
  refine Option.eq_none_iff_forall_ne_some.mpr fun rva h => ?_
  have hinside := (rvaIn?_sound h).2.2.2
  omega

/-- Bytes behind the end of a file extend what was cut, and change nothing else. Addresses keep
their offsets. Of every section the longer file has no less, and what it has begins with what there
was; so does every slice and every window, none of which is lost. Offsets of the shorter file keep
their addresses, and those behind its end had none. The resources are the same if their window was
whole. -/
theorem reads_appended :
    (∀ rva, (image.appended rest).fileOffset? rva = image.fileOffset? rva) ∧
    (∀ header, image.readSize header ≤ (image.appended rest).readSize header ∧
      (image.content header).data.octets <+:
        ((image.appended rest).content header).data.octets) ∧
    (∀ rva length data, image.addressSpace.slice? rva length = some data →
      ∃ more, (image.appended rest).addressSpace.slice? rva length = some more ∧
        data.octets <+: more.octets) ∧
    (∀ key window, image.window? key = some window →
      ∃ more, (image.appended rest).window? key = some more ∧ more.rva = window.rva ∧
        window.data.octets <+: more.data.octets) ∧
    (∀ offset, offset < image.file.size →
      (image.appended rest).rvaOfOffset? offset = image.rvaOfOffset? offset) ∧
    (∀ offset, image.file.size ≤ offset → image.rvaOfOffset? offset = none) ∧
    ∀ range window, image.optional.directory? .resourceTable = some range →
      image.window? .resourceTable = some window → window.data.size = range.size.toNat →
        ∀ limits, (image.appended rest).resources? limits = image.resources? limits := by
  refine ⟨fun _ => rfl, fun header => ?_, fun _ _ _ => image.slice?_appended rest,
    fun _ _ => image.window?_appended rest, fun _ => image.rvaOfOffset?_appended rest,
    fun _ => image.rvaOfOffset?_of_size_le, fun range window hrange h hwhole limits => ?_⟩
  · exact ⟨image.readSize_le_appended rest header, image.content_prefix_appended rest header⟩
  · rw [resources?, resources?, table?, table?, h,
      image.window?_appended_of_whole rest hrange h hwhole]

/-- Four bytes behind a file that has half of what its second section declares, and all of the
resources in it. -/
theorem reads_appended_twoSections :
    let longer := resourcesInSecond.appended (.ofOctets [1, 2, 3, 4])
    (∃ more, longer.addressSpace.slice? 0x2004 0x100 = some more ∧
      (resourcesInSecond.file.clip 0x24 0x100).octets <+: more.octets) ∧
    (∃ more, longer.window? .resourceTable = some more ∧ more.rva = 0x2000 ∧
      (resourcesInSecond.file.clip 0x20 0x20).octets <+: more.data.octets) ∧
    longer.rvaOfOffset? 0x24 = some 0x2004 ∧ resourcesInSecond.rvaOfOffset? 0x40 = none ∧
    longer.resources? .standard = some ⟨⟨0, 0, 0, 0⟩, .nil⟩ := by
  obtain ⟨-, -, hslice, hwindow, hback, hpast, hresources⟩ :=
    reads_appended resourcesInSecond (.ofOctets [1, 2, 3, 4])
  have hfull : resourcesInSecond.window? .resourceTable =
      some ⟨0x2000, resourcesInSecond.file.clip 0x20 0x20⟩ := rfl
  refine ⟨hslice 0x2004 0x100 _ rfl, hwindow _ _ hfull, ?_, hpast 0x40 (by decide), ?_⟩
  · rw [hback 0x24 (by decide)]
    decide
  · rw [hresources ⟨0x2000, 0x20⟩ _ rfl hfull (by decide)]
    decide

end Image

end PeImage
