import PeImage.Header.Fields

/-!
# DOS header

Every image starts with the header of a DOS program. Of its thirty-one fields only two count: the
signature at the front, and at the end the place of the image header, which has a signature of its
own and may not lie inside the DOS header.
-/

namespace PeImage.DosHeader

/-- The bytes of the header. -/
def byteSize : Nat := 0x40

/-- The offset of the field that holds the place of the image header. -/
def placeOffset : Nat := 0x3C

/-- The letters `MZ`. -/
def signature : UInt16 := 0x5A4D

/-- The letters `PE`, followed by two NULs. -/
def imageSignature : UInt32 := 0x4550

/-- The place of the image header. -/
def imageHeaderPlace (file : Bytes) : Except HeaderFault UInt32 := do
  if file.size < 2 then throw .dosSignatureMissing
  if file.u16 0 ≠ signature then throw (.dosSignature (file.u16 0))
  requireFields file 2 (List.replicate 29 2)
  if file.size < placeOffset + 4 then throw .imageHeaderPlaceMissing
  let place := file.u32 placeOffset
  if file.size < place.toNat + 4 then throw (.imageSignatureMissing place)
  if file.u32 place.toNat ≠ imageSignature then
    throw (.imageSignature (file.u32 place.toNat))
  if place.toNat < byteSize then throw (.imageHeaderTooEarly place)
  return place

end PeImage.DosHeader
