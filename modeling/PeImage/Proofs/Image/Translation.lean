import Mathlib.Data.List.Pairwise
import Mathlib.Order.CompletePartialOrder
import Mathlib.Order.Interval.Set.Disjoint
import PeImage.Image.Address

/-!
# Translating addresses forth and back

From an address to its file offset the first section decides whose virtual range has the address;
back, the first whose raw range has the offset. The raw range of a section is what is both in the
file and mapped, so it translates to addresses of the section again, and the two directions agree
on a section. They can only disagree where a section earlier in the table takes the address or the
offset for itself.
-/

namespace PeImage

/-- The addresses of a section, as numbers; they may run past the last address. -/
def SectionHeader.virtualRange (header : SectionHeader) : Set Nat :=
  Set.Ico header.virtualAddress.toNat (header.virtualAddress.toNat + header.extent.toNat)

/-- No address lies in two sections of the table. -/
def SectionTable.HasDisjointAddresses (table : SectionTable) : Prop :=
  table.headers.Pairwise fun a b => Disjoint a.virtualRange b.virtualRange

/-- A section contains the addresses of its virtual range. -/
theorem SectionHeader.contains_iff (header : SectionHeader) (rva : UInt32) :
    header.contains rva = true ↔ rva.toNat ∈ header.virtualRange := by
  rw [contains, Bool.and_eq_true, decide_eq_true_iff, decide_eq_true_iff,
    UInt32.le_iff_toNat_le, virtualRange, Set.mem_Ico]

/-- The section of an address contains it, and no section before it in the table does. -/
theorem SectionTable.byRva?_eq_some_iff {table : SectionTable} {rva : UInt32}
    {header : SectionHeader} :
    table.byRva? rva = some header ↔
      header.contains rva = true ∧ ∃ before after, table.headers = before ++ header :: after ∧
        ∀ other ∈ before, other.contains rva = false := by
  rw [byRva?, List.find?_eq_some_iff_append]
  simp only [Bool.not_eq_true']

/-- With disjoint addresses no section before the one with an address has it as well. -/
theorem SectionTable.HasDisjointAddresses.contains_eq_false {table : SectionTable}
    (h : table.HasDisjointAddresses) {before after : List SectionHeader} {header : SectionHeader}
    (htable : table.headers = before ++ header :: after) {rva : UInt32}
    (hcontains : header.contains rva = true) : ∀ other ∈ before, other.contains rva = false := by
  intro other hother
  rw [HasDisjointAddresses, htable] at h
  have hapart := (List.pairwise_append.mp h).2.2 other hother header List.mem_cons_self
  refine Bool.eq_false_iff.mpr fun hboth => ?_
  exact Set.disjoint_left.mp hapart ((other.contains_iff rva).mp hboth)
    ((header.contains_iff rva).mp hcontains)

namespace Image

/-- The file offsets whose bytes a section maps. -/
def rawRange (image : Image) (header : SectionHeader) : Set Nat :=
  Set.Ico header.rawPointer.toNat
    (header.rawPointer.toNat + min (image.readSize header) header.extent.toNat)

/-- No byte of the file is mapped by two sections. -/
def HasDisjointContents (image : Image) : Prop :=
  image.sections.headers.Pairwise fun a b => Disjoint (image.rawRange a) (image.rawRange b)

/-- The bytes of a section that are in the file end with the file. -/
theorem rawPointer_add_lt_size {image : Image} {header : SectionHeader} {distance : Nat}
    (h : distance < image.readSize header) :
    header.rawPointer.toNat + distance < image.file.size := by
  unfold readSize at h
  split at h <;> omega

/-- A section translates the offsets of its raw range, each to the address as far from its start. -/
theorem rvaIn?_eq_some (image : Image) (header : SectionHeader) (offset : Nat) (rva : UInt32) :
    image.rvaIn? header offset = some rva ↔
      header.rawPointer ≠ 0 ∧ offset ∈ image.rawRange header ∧
        rva.toNat = header.virtualAddress.toNat + (offset - header.rawPointer.toNat) := by
  unfold rvaIn? rawRange
  rw [Set.mem_Ico]
  dsimp only
  have hrva := rva.toNat_lt
  apply Iff.intro
  · intro h
    split at h
    · rename_i hmaps
      obtain rfl := Option.some.inj h
      obtain ⟨hpointer, hstart, hstored, hmapped, hfits⟩ := hmaps
      exact ⟨hpointer, ⟨hstart, by omega⟩, UInt32.toNat_ofNat_of_lt' hfits⟩
    · cases h
  · intro h
    obtain ⟨hpointer, ⟨hstart, hend⟩, hsame⟩ := h
    rw [← hsame, UInt32.ofNat_toNat, if_pos]
    exact ⟨hpointer, hstart, by omega, by omega, rva.toNat_lt⟩

/-- What a section translates is inside it, at the offset it came from. -/
theorem rvaIn?_sound {image : Image} {header : SectionHeader} {offset : Nat} {rva : UInt32}
    (h : image.rvaIn? header offset = some rva) :
    header.rawPointer ≠ 0 ∧ header.contains rva = true ∧
      header.rawPointer.toNat + (rva.toNat - header.virtualAddress.toNat) = offset ∧
        offset < image.file.size := by
  obtain ⟨hpointer, hraw, hrva⟩ := (rvaIn?_eq_some ..).mp h
  obtain ⟨hstart, hend⟩ := Set.mem_Ico.mp hraw
  have hstored : offset - header.rawPointer.toNat < image.readSize header := by omega
  have hsize := rawPointer_add_lt_size hstored
  refine ⟨hpointer, ?_, by omega, by omega⟩
  rw [SectionHeader.contains_iff, SectionHeader.virtualRange, Set.mem_Ico]
  omega

/-- The first section with an address gives its file offset. -/
theorem fileOffset?_of_byRva? {image : Image} {header : SectionHeader} {rva : UInt32}
    (h : image.sections.byRva? rva = some header) :
    image.fileOffset? rva =
      some (header.rawPointer.toNat + (rva.toNat - header.virtualAddress.toNat)) := by
  rw [fileOffset?, h, Option.map_some]

/-- A section whose raw range has the offset of an address of it translates the offset back. -/
theorem rvaIn?_of_contains {image : Image} {header : SectionHeader} {rva : UInt32}
    (hcontains : header.contains rva = true) (hpointer : header.rawPointer ≠ 0)
    (hstored : rva.toNat - header.virtualAddress.toNat < image.readSize header) :
    image.rvaIn? header
      (header.rawPointer.toNat + (rva.toNat - header.virtualAddress.toNat)) = some rva := by
  rw [SectionHeader.contains_iff, SectionHeader.virtualRange, Set.mem_Ico] at hcontains
  refine (rvaIn?_eq_some ..).mpr ⟨hpointer, ?_, by omega⟩
  rw [rawRange, Set.mem_Ico]
  omega

/-- With disjoint raw ranges a section that translates an offset is the only one to do so. -/
theorem rvaOfOffset?_of_disjoint {image : Image} {header : SectionHeader} {offset : Nat}
    {rva : UInt32} (hmem : header ∈ image.sections.headers)
    (hrva : image.rvaIn? header offset = some rva) (hdisjoint : image.HasDisjointContents) :
    image.rvaOfOffset? offset = some rva := by
  have hsome : (image.rvaOfOffset? offset).isSome :=
    List.findSome?_isSome_iff.mpr ⟨header, hmem, by rw [hrva]; rfl⟩
  obtain ⟨found, hfound⟩ := Option.isSome_iff_exists.mp hsome
  obtain ⟨before, other, after, htable, hother, _⟩ := List.findSome?_eq_some_iff.mp hfound
  have hraw := ((rvaIn?_eq_some ..).mp hrva).2.1
  have hrawOther := ((rvaIn?_eq_some ..).mp hother).2.1
  have hsame : other = header := by
    by_contra hne
    have hmemOther : other ∈ image.sections.headers := by
      rw [htable]
      exact List.mem_append_right before List.mem_cons_self
    have : Std.Symm fun a b => Disjoint (image.rawRange a) (image.rawRange b) :=
      ⟨fun _ _ h => h.symm⟩
    have hapart := List.Pairwise.forall hdisjoint hmemOther hmem hne
    exact Set.disjoint_left.mp hapart hrawOther hraw
  rw [hfound, ← hother, hsame, hrva]

/-- Translation back and forth. The address of a file offset lies in a section that has the offset,
and it is translated to the offset again unless a section earlier in the table has the address. The
offset of an address that its section maps from the file is translated to some address, and to the
address itself unless another section maps the same byte. -/
theorem fileOffset_rvaOfOffset_inverse (image : Image) :
    (∀ offset rva, image.rvaOfOffset? offset = some rva →
      ∃ before header after, image.sections.headers = before ++ header :: after ∧
        header.rawPointer ≠ 0 ∧ header.contains rva = true ∧
        header.rawPointer.toNat + (rva.toNat - header.virtualAddress.toNat) = offset ∧
        offset < image.file.size ∧
        ((∀ other ∈ before, other.contains rva = false) → image.fileOffset? rva = some offset) ∧
        (image.sections.HasDisjointAddresses → image.fileOffset? rva = some offset)) ∧
    ∀ rva header, image.sections.byRva? rva = some header → header.rawPointer ≠ 0 →
      rva.toNat - header.virtualAddress.toNat < image.readSize header →
        ∃ offset, image.fileOffset? rva = some offset ∧ (image.rvaOfOffset? offset).isSome ∧
          (image.HasDisjointContents → image.rvaOfOffset? offset = some rva) := by
  apply And.intro
  · intro offset rva h
    obtain ⟨before, header, after, htable, hrva, _⟩ := List.findSome?_eq_some_iff.mp h
    obtain ⟨hpointer, hcontains, hoffset, hsize⟩ := rvaIn?_sound hrva
    have hforth : (∀ other ∈ before, other.contains rva = false) →
        image.fileOffset? rva = some offset := by
      intro hbefore
      have hfirst : image.sections.byRva? rva = some header :=
        SectionTable.byRva?_eq_some_iff.mpr ⟨hcontains, before, after, htable, hbefore⟩
      rw [fileOffset?_of_byRva? hfirst, hoffset]
    exact ⟨before, header, after, htable, hpointer, hcontains, hoffset, hsize, hforth,
      fun hdisjoint => hforth (hdisjoint.contains_eq_false htable hcontains)⟩
  · intro rva header h hpointer hstored
    obtain ⟨hcontains, before, after, htable, _⟩ := SectionTable.byRva?_eq_some_iff.mp h
    have hmem : header ∈ image.sections.headers := by
      rw [htable]
      exact List.mem_append_right before List.mem_cons_self
    have hrva := rvaIn?_of_contains hcontains hpointer hstored
    refine ⟨_, fileOffset?_of_byRva? h, ?_, rvaOfOffset?_of_disjoint hmem hrva⟩
    exact List.findSome?_isSome_iff.mpr ⟨header, hmem, by rw [hrva]; rfl⟩

/-- A file of 64 bytes with two sections, the second of which is longer in the file than mapped. -/
def twoSections : Image :=
  ofParts (Bytes.ofOctets (List.replicate 0x40 0))
    ⟨[.ofValues ".text" 1 0x1000 0x20 0x10 0x10 0, .ofValues ".data" 2 0x2000 0x08 0x20 0x40 0]⟩ {}

/-- The sections have no address and no byte of the file in common. -/
theorem twoSections_disjoint :
    twoSections.sections.HasDisjointAddresses ∧ twoSections.HasDisjointContents := by
  simp only [SectionTable.HasDisjointAddresses, HasDisjointContents, twoSections, ofParts,
    List.pairwise_pair, SectionHeader.virtualRange, rawRange, Set.Ico_disjoint_Ico]
  decide

/-- The fifth byte of the second section, there and back. -/
theorem fileOffset_rvaOfOffset_inverse_twoSections :
    twoSections.rvaOfOffset? 0x24 = some 0x2004 ∧ twoSections.fileOffset? 0x2004 = some 0x24 := by
  obtain ⟨hforth, hback⟩ := fileOffset_rvaOfOffset_inverse twoSections
  obtain ⟨hdisjoint, hcontents⟩ := twoSections_disjoint
  obtain ⟨_, _, _, _, _, _, _, _, _, hoffset⟩ := hforth 0x24 0x2004 (by decide)
  have hsection : twoSections.sections.byRva? 0x2004 =
      some (.ofValues ".data" 2 0x2000 0x08 0x20 0x40 0) := by decide
  obtain ⟨offset, hsome, _, hrva⟩ := hback 0x2004 _ hsection (by decide) (by decide)
  obtain rfl : offset = 0x24 := Option.some.inj (hsome.symm.trans (hoffset hdisjoint))
  exact ⟨hrva hcontents, hsome⟩

end Image

end PeImage
