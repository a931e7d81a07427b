import PeImage.Header.Fields
import PeImage.Header.Optional

/-!
# Layout of the optional header

Where the fields of the optional header are stored. The two kinds of images differ in the width of
some fields, so most offsets behind the first ones depend on the kind. The header ends with the
directory array, which declares its own length. A length beyond sixteen is read as sixteen: the
file is then decoded from a copy in which the length is set so.
-/

namespace PeImage

/-- The entries of the directory array that have a meaning. -/
def directoryLimit : Nat := 16

namespace OptionalHeader

/-- The sizes of the fields before the directory array. -/
def fieldSizes (isWide : Bool) : List Nat :=
  let word := if isWide then 8 else 4
  [2, 1, 1, 4, 4, 4, 4, 4] ++ (if isWide then [] else [4]) ++
    [word, 4, 4, 2, 2, 2, 2, 2, 2, 4, 4, 4, 4, 2, 2, word, word, word, word, 4, 4]

/-- The offset of the length of the directory array. -/
def directoryCountOffset (isWide : Bool) : Nat := if isWide then 108 else 92

/-- The table declared at a place of the directory array that starts at an offset. -/
def rangeAt? (file : Bytes) (offset index : Nat) : Option DirectoryRange :=
  let address := file.u32 (offset + 8 * index)
  let size := file.u32 (offset + 8 * index + 4)
  if address = 0 ∧ size = 0 then none else some ⟨address, size⟩

/-- The tables declared by a directory array of `count` entries. -/
def directoriesAt (file : Bytes) (offset count : Nat) : DirectoryMap :=
  ⟨Vector.ofFn fun index => if index < count then rangeAt? file offset index else none⟩

/-- The header stored at an offset. -/
def readAt (file : Bytes) (offset : Nat) (isWide : Bool) : OptionalHeader where
  magic := file.u16 offset
  entryPoint := file.u32 (offset + 16)
  imageBase := if isWide then file.u64 (offset + 24) else (file.u32 (offset + 28)).toUInt64
  sectionAlignment := file.u32 (offset + 32)
  fileAlignment := file.u32 (offset + 36)
  sizeOfImage := file.u32 (offset + 56)
  sizeOfHeaders := file.u32 (offset + 60)
  subsystem := file.u16 (offset + 68)
  dllCharacteristics := file.u16 (offset + 70)
  directories :=
    let place := offset + directoryCountOffset isWide
    directoriesAt file (place + 4) (file.u32 place).toNat

/-- The header at an offset, if it is of a known kind and all of it lies inside the file. -/
def read (file : Bytes) (offset : Nat) : Except HeaderFault OptionalHeader := do
  requireField file offset 2
  let magic := file.u16 offset
  if magic ≠ magic32 ∧ magic ≠ magicWide then throw (.optionalMagic magic)
  let isWide : Bool := magic = magicWide
  requireFields file offset (fieldSizes isWide)
  let place := offset + directoryCountOffset isWide
  requireFields file (place + 4) (List.replicate (2 * (file.u32 place).toNat) 4)
  return readAt file offset isWide

/-- The offset of the length of the directory array in a file, if everything on the way to it lies
inside. -/
def directoryCountPlace? (file : Bytes) : Option Nat := do
  let place ← file.u32? 0x3C
  let offset := place.toNat + 24
  let magic ← file.u16? offset
  some (offset + directoryCountOffset (magic = magicWide))

/-- A copy of a file with a directory array of sixteen entries, if the file declares more. -/
def clampDirectoryCount? (file : Bytes) : Option Bytes := do
  let place ← directoryCountPlace? file
  let count ← file.u32? place
  if directoryLimit < count.toNat then
    some (file.overwrite place (LittleEndian.ofNat 4 directoryLimit))
  else none

end OptionalHeader

end PeImage
