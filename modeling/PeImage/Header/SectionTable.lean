import PeImage.Fault
import PeImage.Header.SectionFlag
import PeImage.Text.Utf8

/-!
# Section table

The section headers of an image in the order of the file. No field is trusted: sections may
overlap, share a name or lie past the end of the file, so every lookup takes the first header that
fits, and a header that no lookup reaches can still be had by its position.
-/

namespace PeImage

/-- The header of a section. -/
structure SectionHeader where
  /-- The text of the raw name, or the long name it stands for. -/
  name : String
  rawName : Vector UInt8 8
  /-- The position in the section table, counted from one. -/
  number : Nat
  virtualAddress : UInt32
  virtualSize : UInt32
  rawPointer : UInt32
  rawSize : UInt32
  flags : SectionFlags
  deriving DecidableEq, Repr

namespace SectionHeader

/-- The text of a raw name: its bytes before the first NUL. -/
def nameOfRaw (rawName : Vector UInt8 8) : String :=
  Utf8.decode (rawName.toList.takeWhile (· ≠ 0))

/-- The raw name of a text: its first eight bytes, filled up with NULs. -/
def rawOfName (name : String) : Vector UInt8 8 :=
  Vector.ofFn fun i => (Utf8.encode name).getD i 0

/-- A header from its declared values. The name is cut to what a raw name can hold. -/
def ofValues (name : String) (number : Nat)
    (virtualAddress virtualSize rawPointer rawSize bits : UInt32) : SectionHeader where
  name := nameOfRaw (rawOfName name)
  rawName := rawOfName name
  number := number
  virtualAddress := virtualAddress
  virtualSize := virtualSize
  rawPointer := rawPointer
  rawSize := rawSize
  flags := ⟨bits⟩

/-- The bytes of address space that the section takes: its virtual size, or its raw size where
that is zero. -/
def extent (header : SectionHeader) : UInt32 :=
  if header.virtualSize = 0 then header.rawSize else header.virtualSize

/-- Whether an address lies in the section. The end is not wrapped, so a section that would run
past the last address covers all addresses from its start on. -/
def contains (header : SectionHeader) (rva : UInt32) : Bool :=
  header.virtualAddress ≤ rva && rva.toNat < header.virtualAddress.toNat + header.extent.toNat

end SectionHeader

/-- The section headers of an image in the order of the file. -/
structure SectionTable where
  headers : List SectionHeader
  deriving DecidableEq, Repr

namespace SectionTable

/-- The number of sections. -/
def size (table : SectionTable) : Nat := table.headers.length

/-- The first section of a name. -/
def byName? (table : SectionTable) (name : String) : Option SectionHeader :=
  table.headers.find? (·.name = name)

/-- The first section that an address lies in. -/
def byRva? (table : SectionTable) (rva : UInt32) : Option SectionHeader :=
  table.headers.find? (·.contains rva)

/-- The first section of a name, which is expected to exist. -/
def byName (table : SectionTable) (name : String) : Except Fault SectionHeader :=
  match table.byName? name with
  | some header => .ok header
  | none => .error (.noSectionNamed name)

/-- The section at a position, counted from one. -/
def byNumber (table : SectionTable) : (number : Nat) → Except Fault SectionHeader
  | 0 => .error (.noSectionNumbered 0 table.size)
  | index + 1 =>
    match table.headers[index]? with
    | some header => .ok header
    | none => .error (.noSectionNumbered (index + 1) table.size)

end SectionTable

end PeImage
