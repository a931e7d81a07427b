import Mathlib.Data.List.Find
import PeImage.Image.Tables
import PeImage.Proofs.Image.Translation

/-!
# The order of the section table

An address belongs to the first section that contains it, so the order of the table decides where
sections overlap, and nowhere else. Where no address lies in two sections, every section is found at
all of its addresses, and a rearranged table finds it there too. Whatever is read at an address, and
every declared table with all that it points to, reaches the section table by that look-up alone.

File offsets are translated back by a search of its own, in which the order also counts where
sections share bytes of the file. Sections with disjoint addresses may do so, and nothing is said of
that direction here.
-/

namespace PeImage

namespace SectionTable.HasDisjointAddresses

variable {table other : SectionTable} (h : table.HasDisjointAddresses)

include h

/-- With disjoint addresses no two sections have the same address. -/
theorem subsingleton_contains (rva : UInt32) :
    {header ∈ table.headers | header.contains rva = true}.Subsingleton := by
  rintro a ⟨ha, hinA⟩ b ⟨hb, hinB⟩
  by_contra hne
  have : Std.Symm fun a b : SectionHeader => Disjoint a.virtualRange b.virtualRange :=
    ⟨fun _ _ hapart => hapart.symm⟩
  have hapart := List.Pairwise.forall h ha hb hne
  exact Set.disjoint_left.mp hapart ((a.contains_iff rva).mp hinA) ((b.contains_iff rva).mp hinB)

/-- With disjoint addresses a section is found at each of its addresses. -/
theorem byRva?_of_mem {header : SectionHeader} (hmem : header ∈ table.headers) {rva : UInt32}
    (hrva : rva.toNat ∈ header.virtualRange) : table.byRva? rva = some header := by
  have hcontains := (header.contains_iff rva).mpr hrva
  cases hfound : table.headers.find? (·.contains rva) with
  | none => exact absurd hcontains (List.find?_eq_none.mp hfound header hmem)
  | some found =>
    have hinFound := List.find?_some hfound
    have hsame : found = header := h.subsingleton_contains rva
      ⟨List.mem_of_find?_eq_some hfound, hinFound⟩ ⟨hmem, hcontains⟩
    rw [byRva?, hfound, hsame]

/-- With disjoint addresses a rearranged table finds the same section at an address. -/
theorem byRva?_of_perm (hperm : table.headers.Perm other.headers) (rva : UInt32) :
    table.byRva? rva = other.byRva? rva :=
  List.find?_eq_find?_of_perm hperm (h.subsingleton_contains rva)

end SectionTable.HasDisjointAddresses

namespace Image

/-- Two images of one file with the same declared tables, in which each address has the same
section. -/
structure ReadsAlike (a b : Image) : Prop where
  file : a.file = b.file
  optional : a.optional = b.optional
  byRva? : ∀ rva, a.sections.byRva? rva = b.sections.byRva? rva

namespace ReadsAlike

variable {a b : Image} (h : ReadsAlike a b)

include h

theorem fileOffset? (rva : UInt32) : a.fileOffset? rva = b.fileOffset? rva := by
  rw [Image.fileOffset?, Image.fileOffset?, h.byRva?]

theorem fileOffsetOfAbsolute? (address : UInt64) :
    a.fileOffsetOfAbsolute? address = b.fileOffsetOfAbsolute? address := by
  simp only [Image.fileOffsetOfAbsolute?, h.optional, h.fileOffset?]

theorem addressSpace : a.addressSpace = b.addressSpace := by
  simp only [Image.addressSpace, h.file, h.optional, funext h.fileOffset?]

theorem window? (key : DirectoryKey) : a.window? key = b.window? key := by
  simp only [Image.window?, h.file, h.optional, h.fileOffset?]

theorem exports? (limits : Limits) : a.exports? limits = b.exports? limits := by
  simp only [Image.exports?, table?, h.window?, h.addressSpace]

theorem imports? (limits : Limits) : a.imports? limits = b.imports? limits := by
  simp only [Image.imports?, table?, h.window?, h.addressSpace]

theorem resources? (limits : Limits) : a.resources? limits = b.resources? limits := by
  simp only [Image.resources?, table?, h.window?]

end ReadsAlike

/-- Rearranging sections with disjoint addresses changes nothing that is read by address. Two images
of one file with the same optional header, whose tables have the same rows in any order, find the
same section at every address, translate addresses to the same offsets and read the same bytes
there. Their declared tables have the same windows and are decoded alike. Every section is found at
all of its addresses, in both of them. -/
theorem reads_rearranged {a b : Image} (hfile : a.file = b.file)
    (hoptional : a.optional = b.optional) (hdisjoint : a.sections.HasDisjointAddresses)
    (hperm : a.sections.headers.Perm b.sections.headers) :
    (∀ rva, a.sections.byRva? rva = b.sections.byRva? rva) ∧
    (∀ rva, a.fileOffset? rva = b.fileOffset? rva) ∧
    (∀ address, a.fileOffsetOfAbsolute? address = b.fileOffsetOfAbsolute? address) ∧
    (∀ rva length, a.addressSpace.slice? rva length = b.addressSpace.slice? rva length) ∧
    (∀ key, a.window? key = b.window? key) ∧
    (∀ limits, a.exports? limits = b.exports? limits ∧ a.imports? limits = b.imports? limits ∧
      a.resources? limits = b.resources? limits) ∧
    ∀ header ∈ a.sections.headers, ∀ rva : UInt32, rva.toNat ∈ header.virtualRange →
      a.sections.byRva? rva = some header ∧ b.sections.byRva? rva = some header := by
  have h : ReadsAlike a b := ⟨hfile, hoptional, hdisjoint.byRva?_of_perm hperm⟩
  refine ⟨h.byRva?, h.fileOffset?, h.fileOffsetOfAbsolute?, fun rva length => ?_, h.window?,
    fun limits => ⟨h.exports? limits, h.imports? limits, h.resources? limits⟩,
    fun header hmem rva hrva => ?_⟩
  · rw [h.addressSpace]
  · have hfound := hdisjoint.byRva?_of_mem hmem hrva
    exact ⟨hfound, (h.byRva? rva).symm.trans hfound⟩

/-- The image with two sections, in the second of which an empty tree of resources is declared. -/
def resourcesInSecond : Image :=
  { twoSections with optional := OptionalHeader.withDirectory {} .resourceTable ⟨0x2000, 0x20⟩ }

/-- The same image with the second section in front of the first. -/
def resourcesInFirst : Image :=
  { resourcesInSecond with sections := ⟨resourcesInSecond.sections.headers.reverse⟩ }

/-- The section of an address, its offset and the resources are the same in both. -/
theorem reads_rearranged_twoSections :
    resourcesInFirst.sections.byRva? 0x2004 =
      some (.ofValues ".data" 2 0x2000 0x08 0x20 0x40 0) ∧
    resourcesInFirst.fileOffset? 0x2004 = some 0x24 ∧
    resourcesInFirst.resources? .standard = some ⟨⟨0, 0, 0, 0⟩, .nil⟩ := by
  obtain ⟨-, hoffset, -, -, -, htables, hrows⟩ :=
    reads_rearranged (a := resourcesInSecond) (b := resourcesInFirst) rfl rfl
      twoSections_disjoint.1 (List.reverse_perm _).symm
  refine ⟨(hrows _ (by decide) 0x2004 ((SectionHeader.contains_iff ..).mp (by decide))).2, ?_, ?_⟩
  · rw [← hoffset]
    decide
  · rw [← (htables .standard).2.2]
    decide

end Image

end PeImage
