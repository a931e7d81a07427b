import PeImage.AddressSpace
import PeImage.Image.Basic

/-!
# Addresses of an image

Translation between relative virtual addresses, absolute addresses and file offsets. An address
belongs to the first section in table order that contains it. Backwards only those bytes of a
section count that are both in the file and mapped, again in the first section that has them.
-/

namespace PeImage.Image

/-- The file offset of an address: its distance from the start of its section, counted from where
the section starts in the file. The file may well end before it. -/
def fileOffset? (image : Image) (rva : UInt32) : Option Nat :=
  (image.sections.byRva? rva).map fun header =>
    header.rawPointer.toNat + (rva.toNat - header.virtualAddress.toNat)

/-- The file offset at which a declared table starts. -/
def fileOffsetFor? (image : Image) (key : DirectoryKey) : Option Nat := do
  let range ← image.optional.directory? key
  image.fileOffset? range.address

/-- The file offset of an absolute address. -/
def fileOffsetOfAbsolute? (image : Image) (address : UInt64) : Option Nat :=
  let base := image.optional.imageBase
  let distance := address.toNat - base.toNat
  if base ≤ address ∧ distance < UInt32.size then image.fileOffset? (UInt32.ofNat distance)
  else none

/-- The bytes of a section that are in the file. -/
def readSize (image : Image) (header : SectionHeader) : Nat :=
  if header.rawPointer = 0 then 0
  else min header.rawSize.toNat (image.file.size - header.rawPointer.toNat)

/-- The address at which a section maps the byte at a file offset, if it does. -/
def rvaIn? (image : Image) (header : SectionHeader) (offset : Nat) : Option UInt32 :=
  let distance := offset - header.rawPointer.toNat
  let rva := header.virtualAddress.toNat + distance
  if header.rawPointer ≠ 0 ∧ header.rawPointer.toNat ≤ offset ∧ distance < image.readSize header ∧
      distance < header.extent.toNat ∧ rva < UInt32.size then some (UInt32.ofNat rva)
  else none

/-- The address of the byte at a file offset. -/
def rvaOfOffset? (image : Image) (offset : Nat) : Option UInt32 :=
  image.sections.headers.findSome? (image.rvaIn? · offset)

/-- The section that a declared table starts in. -/
def sectionFor? (image : Image) (key : DirectoryKey) : Option SectionHeader := do
  let range ← image.optional.directory? key
  image.sections.byRva? range.address

/-- The section that the entry point lies in. -/
def entryPointSection? (image : Image) : Option SectionHeader :=
  image.sections.byRva? image.optional.entryPoint

/-- The address space that the sections of the image lay over its file. -/
def addressSpace (image : Image) : AddressSpace where
  bytes := image.file
  place? := image.fileOffset?
  isWide := image.optional.isWide

end PeImage.Image
