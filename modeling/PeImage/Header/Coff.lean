import PeImage.Header.Fields

/-!
# File header

The header behind the signature of an image. It says how many sections there are and how large the
optional header in front of them is; the place of the symbol table matters only because long
section names are kept behind it.
-/

namespace PeImage

/-- What the file header says of an image as a whole. -/
structure FileHeader where
  machine : UInt16 := 0
  sectionCount : UInt16 := 0
  timeDateStamp : UInt32 := 0
  characteristics : UInt16 := 0
  deriving DecidableEq, Repr

/-- The file header as stored. -/
structure StoredFileHeader extends FileHeader where
  symbolTable : UInt32
  symbolCount : UInt32
  optionalSize : UInt16
  deriving DecidableEq, Repr

namespace StoredFileHeader

/-- The bytes of the header. -/
def byteSize : Nat := 20

/-- The sizes of the fields. -/
def fieldSizes : List Nat := [2, 2, 4, 4, 4, 2, 2]

/-- The header stored at an offset. -/
def readAt (file : Bytes) (offset : Nat) : StoredFileHeader where
  machine := file.u16 offset
  sectionCount := file.u16 (offset + 2)
  timeDateStamp := file.u32 (offset + 4)
  symbolTable := file.u32 (offset + 8)
  symbolCount := file.u32 (offset + 12)
  optionalSize := file.u16 (offset + 16)
  characteristics := file.u16 (offset + 18)

/-- The header at an offset, if all of it lies inside the file. -/
def read (file : Bytes) (offset : Nat) : Except HeaderFault StoredFileHeader := do
  requireFields file offset fieldSizes
  return readAt file offset

/-- The offset of the long names, which follow the symbols of eighteen bytes each. -/
def longNames (header : StoredFileHeader) : Nat :=
  header.symbolTable.toNat + 18 * header.symbolCount.toNat

end StoredFileHeader

end PeImage
