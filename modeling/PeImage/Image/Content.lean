import PeImage.Image.Address

/-!
# Contents of an image

What a section or a declared table holds, as far as it is in the file. Only asking for a section
that does not exist is a fault; whatever the file itself gets wrong shortens the content or makes
it absent.
-/

namespace PeImage

/-- The bytes of a section that are in the file. -/
structure SectionContent where
  header : SectionHeader
  data : Bytes

/-- The bytes of a section from an address on. The address right behind the last byte counts as
inside. -/
def SectionContent.dataAt? (content : SectionContent) (rva : UInt32) : Option Bytes :=
  let start := content.header.virtualAddress
  let offset := rva.toNat - start.toNat
  if start ≤ rva ∧ offset ≤ content.data.size then some (content.data.clip offset content.data.size)
  else none

namespace Image

/-- The content of a section. -/
def content (image : Image) (header : SectionHeader) : SectionContent :=
  ⟨header, image.file.clip header.rawPointer.toNat (image.readSize header)⟩

/-- The content of the first section of a name. -/
def contentNamed (image : Image) (name : String) : Except Fault SectionContent :=
  (image.sections.byName name).map image.content

/-- The content of the section at a position, counted from one. -/
def contentNumbered (image : Image) (number : Nat) : Except Fault SectionContent :=
  (image.sections.byNumber number).map image.content

/-- The content of the section that a declared table starts in. -/
def contentFor? (image : Image) (key : DirectoryKey) : Option SectionContent :=
  (image.sectionFor? key).map image.content

/-- The content of the section that an address lies in. -/
def contentAt? (image : Image) (rva : UInt32) : Option SectionContent :=
  (image.sections.byRva? rva).map image.content

/-- The bytes of a declared table that are in the file. It has none where it starts past the end
of the file, and is absent where its address lies in no section. -/
def window? (image : Image) (key : DirectoryKey) : Option DirectoryWindow := do
  let range ← image.optional.directory? key
  let offset ← image.fileOffset? range.address
  some ⟨range.address, image.file.clip offset range.size.toNat⟩

end Image

end PeImage
