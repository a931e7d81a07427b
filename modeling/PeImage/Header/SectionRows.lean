import PeImage.Header.Fields
import PeImage.Header.SectionName
import PeImage.Header.SectionTable

/-!
# Stored section headers

The section table of a file is a row of records of forty bytes. Each record is read as a whole and
its name is looked up before the next one, so the first record that is cut or has a bad name is
the one reported.
-/

namespace PeImage

namespace SectionHeader

/-- The bytes of a record. -/
def byteSize : Nat := 40

/-- The sizes of the fields of a record. -/
def fieldSizes : List Nat := [8, 4, 4, 4, 4, 4, 4, 2, 2, 4]

/-- The raw name stored at an offset. -/
def rawNameAt (file : Bytes) (offset : Nat) : Vector UInt8 8 :=
  Vector.ofFn fun i => file.u8 (offset + i)

/-- The header stored at an offset; its name is the long name, if there is one. -/
def readAt (file : Bytes) (offset number : Nat) (longName? : Option String) : SectionHeader where
  name := longName?.getD (nameOfRaw (rawNameAt file offset))
  rawName := rawNameAt file offset
  number := number
  virtualSize := file.u32 (offset + 8)
  virtualAddress := file.u32 (offset + 12)
  rawSize := file.u32 (offset + 16)
  rawPointer := file.u32 (offset + 20)
  flags := ⟨file.u32 (offset + 36)⟩

/-- The header at an offset, if all of it lies inside the file and its name is sound. -/
def read (file : Bytes) (longNames offset number : Nat) : Except HeaderFault SectionHeader := do
  requireFields file offset fieldSizes
  let longName? ← SectionName.longName? file longNames (rawNameAt file offset).toList
  return readAt file offset number longName?

end SectionHeader

namespace SectionTable

/-- The `count` headers from an offset on, with their numbers. -/
def readRows (file : Bytes) (longNames : Nat) :
    (offset number count : Nat) → Except HeaderFault (List SectionHeader)
  | _, _, 0 => .ok []
  | offset, number, count + 1 => do
    let header ← SectionHeader.read file longNames offset number
    let headers ← readRows file longNames (offset + SectionHeader.byteSize) (number + 1) count
    return header :: headers

/-- The section table of `count` headers at an offset. A count that the file cannot hold, wherever
the table is, is refused at once. -/
def read (file : Bytes) (longNames offset : Nat) (count : UInt16) :
    Except HeaderFault SectionTable := do
  if file.size / SectionHeader.byteSize < count.toNat then throw (.tooManySections count)
  return ⟨← readRows file longNames offset 1 count.toNat⟩

end SectionTable

end PeImage
