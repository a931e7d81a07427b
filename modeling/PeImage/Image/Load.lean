import PeImage.Header.Coff
import PeImage.Header.Dos
import PeImage.Header.OptionalLayout
import PeImage.Header.Rich
import PeImage.Header.SectionRows
import PeImage.Image.Basic

/-!
# Loading an image

The headers of a file, decoded in the order in which they follow each other: DOS header, rich
header, file header, optional header and section table. The first fault ends the decoding. Where
the length of the directory array is out of range, all of it is read from a copy of the file with
that length set right; the image keeps the file as it is.
-/

namespace PeImage

/-- Lifts a header fault to a fault of the whole request. -/
def ofHeader {α : Type} (result : Except HeaderFault α) : Except Fault α :=
  result.mapError .header

/-- The decoded headers of a file. -/
structure Headers where
  fileHeader : FileHeader
  optional : OptionalHeader
  sections : SectionTable
  deriving DecidableEq, Repr

namespace Headers

/-- The optional header behind a file header, which has to announce one. The use of the reserved
directory is a fault here, for decoding ends with it; an engine stops with a panic there, and
checked loading has a trap in its place. -/
def readOptional (file : Bytes) (place : Nat) (header : StoredFileHeader) :
    Except Fault OptionalHeader := do
  if header.optionalSize = 0 then throw .noOptionalHeader
  let optional ← ofHeader (OptionalHeader.read file (place + 4 + StoredFileHeader.byteSize))
  if (optional.directory? .reserved).isSome then throw .reservedDirectory
  return optional

/-- The section table behind an optional header of the announced size. -/
def readSections (file : Bytes) (place : Nat) (header : StoredFileHeader) :
    Except Fault SectionTable :=
  let offset := place + 4 + StoredFileHeader.byteSize + header.optionalSize.toNat
  ofHeader (SectionTable.read file header.longNames offset header.sectionCount)

/-- The headers of a file whose directory array has a length in range. -/
def read (file : Bytes) : Except Fault Headers := do
  let place ← ofHeader (DosHeader.imageHeaderPlace file)
  ofHeader (RichHeader.check file place.toNat)
  let header ← ofHeader (StoredFileHeader.read file (place.toNat + 4))
  let optional ← readOptional file place.toNat header
  let sections ← readSections file place.toNat header
  return ⟨header.toFileHeader, optional, sections⟩

end Headers

namespace Image

/-- The image in a file that has bytes. -/
def ofFile (file : Bytes) : Except Fault Image := do
  let headers ← Headers.read ((OptionalHeader.clampDirectoryCount? file).getD file)
  return {
    file := file
    fileHeader := headers.fileHeader
    optional := headers.optional
    sections := headers.sections }

/-- The image in the contents of a file, `none` standing for a file that cannot be opened. -/
def load (contents : Option Bytes) : Except Fault Image := do
  ofFile (← openContents contents)

end Image

end PeImage
