import PeImage.Header.Directory
import PeImage.Header.DllFlag

/-!
# Optional header

The fields of the optional header that reading an image needs, and the data directories it
declares. The magic number tells the two kinds of images apart: 32-bit ones, and wide ones whose
addresses and import thunks have 64 bits.
-/

namespace PeImage

/-- The optional header of an image; the defaults are those of an empty 32-bit image. -/
structure OptionalHeader where
  magic : UInt16 := 0x10B
  entryPoint : UInt32 := 0
  imageBase : UInt64 := 0x400000
  sectionAlignment : UInt32 := 0x1000
  fileAlignment : UInt32 := 0x200
  sizeOfImage : UInt32 := 0
  sizeOfHeaders : UInt32 := 0
  subsystem : UInt16 := 0
  dllCharacteristics : UInt16 := 0
  directories : DirectoryMap := .empty
  deriving DecidableEq, Repr

namespace OptionalHeader

/-- The magic number of 32-bit images. -/
def magic32 : UInt16 := 0x10B

/-- The magic number of wide images. -/
def magicWide : UInt16 := 0x20B

/-- Whether the image is a wide one. -/
def isWide (header : OptionalHeader) : Bool := header.magic = magicWide

/-- The DLL characteristics that are set. -/
def dllFlags (header : OptionalHeader) : List DllFlag := DllFlag.ofWord header.dllCharacteristics

/-- Where a table is declared, if it is. -/
def directory? (header : OptionalHeader) (key : DirectoryKey) : Option DirectoryRange :=
  header.directories.get? key

/-- The header with another entry point. -/
def withEntryPoint (header : OptionalHeader) (rva : UInt32) : OptionalHeader :=
  { header with entryPoint := rva }

/-- The header with a table declared. -/
def withDirectory (header : OptionalHeader) (key : DirectoryKey) (range : DirectoryRange) :
    OptionalHeader :=
  { header with directories := header.directories.insert key range }

/-- The header without a declaration of a table. -/
def withoutDirectory (header : OptionalHeader) (key : DirectoryKey) : OptionalHeader :=
  { header with directories := header.directories.erase key }

/-- A change to a header. -/
inductive Edit
  | entryPoint (rva : UInt32)
  | declare (key : DirectoryKey) (range : DirectoryRange)
  | withdraw (key : DirectoryKey)
  deriving DecidableEq, Repr

/-- The header after a change. -/
def apply (header : OptionalHeader) : Edit → OptionalHeader
  | .entryPoint rva => header.withEntryPoint rva
  | .declare key range => header.withDirectory key range
  | .withdraw key => header.withoutDirectory key

/-- The header after a list of changes in sequence. -/
def applyAll (header : OptionalHeader) (edits : List Edit) : OptionalHeader :=
  edits.foldl apply header

end OptionalHeader

end PeImage
