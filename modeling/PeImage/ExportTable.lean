import PeImage.AddressSpace
import PeImage.Limits

/-!
# Export table

The functions that an image offers to others. The export directory points to three arrays: the
addresses of the functions, and names paired with positions in the array of addresses. Every
position with an address is an export; its name is the first one that is paired with the position
and can be read. An address inside the directory itself is no function but the text of a
forwarder, which names a function of another library.
-/

namespace PeImage

/-- The fixed part of the export directory. -/
structure ExportDirectory where
  characteristics : UInt32
  timeDateStamp : UInt32
  majorVersion : UInt16
  minorVersion : UInt16
  nameRva : UInt32
  ordinalBase : UInt32
  functionCount : UInt32
  nameCount : UInt32
  addressesRva : UInt32
  namePointersRva : UInt32
  nameOrdinalsRva : UInt32
  deriving DecidableEq, Repr

namespace ExportDirectory

/-- The bytes of the fixed part. -/
def byteSize : Nat := 40

/-- The directory stored at the start of the bytes. -/
def read (data : Bytes) : ExportDirectory where
  characteristics := data.u32 0
  timeDateStamp := data.u32 4
  majorVersion := data.u16 8
  minorVersion := data.u16 10
  nameRva := data.u32 12
  ordinalBase := data.u32 16
  functionCount := data.u32 20
  nameCount := data.u32 24
  addressesRva := data.u32 28
  namePointersRva := data.u32 32
  nameOrdinalsRva := data.u32 36

end ExportDirectory

/-- A function that is exported, or forwarded to another library. -/
structure ExportEntry where
  ordinal : UInt32
  rva : UInt32
  name : Option String
  forwarder : Option String
  deriving DecidableEq, Repr

/-- The exports of an image. -/
structure ExportTable where
  directory : ExportDirectory
  name : Option String
  entries : List ExportEntry
  deriving DecidableEq, Repr

namespace ExportTable

/-- The first export of a name. -/
def byName? (table : ExportTable) (name : String) : Option ExportEntry :=
  table.entries.find? (·.name = some name)

/-- The export of an ordinal. -/
def byOrdinal? (table : ExportTable) (ordinal : UInt32) : Option ExportEntry :=
  table.entries.find? (·.ordinal = ordinal)

/-- The exports that are forwarded to other libraries. -/
def forwarders (table : ExportTable) : List ExportEntry :=
  table.entries.filter (·.forwarder.isSome)

/-- The addresses of the functions. A directory that declares none needs no array of them. -/
def addresses (space : AddressSpace) (limits : Limits) (directory : ExportDirectory) :
    Except Fault (List UInt32) :=
  let count := min directory.functionCount.toNat limits.exports
  if count = 0 then .ok []
  else
    match space.words? directory.addressesRva 4 count with
    | some words => .ok (words.map UInt32.ofNat)
    | none => .error (.exportAddressesUnresolved directory.addressesRva)

/-- The addresses of names, each with the position in the array of functions that it names. -/
def namePairs (space : AddressSpace) (limits : Limits) (directory : ExportDirectory) :
    List (UInt32 × Nat) :=
  let count := min directory.nameCount.toNat limits.exports
  match space.words? directory.namePointersRva 4 count,
    space.words? directory.nameOrdinalsRva 2 count with
  | some pointers, some positions => (pointers.map UInt32.ofNat).zip positions
  | _, _ => []

/-- Gives a name to a position, unless it has one already, is out of range, or the name cannot be
read. -/
def assignName (space : AddressSpace) (cap : Nat) (slots : Array (Option String))
    (pair : UInt32 × Nat) : Array (Option String) :=
  match slots[pair.2]? with
  | some none => slots.setIfInBounds pair.2 (space.text? pair.1 cap)
  | _ => slots

/-- The names of `count` positions. -/
def names (space : AddressSpace) (cap count : Nat) (pairs : List (UInt32 × Nat)) :
    Array (Option String) :=
  pairs.foldl (assignName space cap) (Array.replicate count none)

/-- The export at a position of the array of functions, if the position is in use. -/
def entry? (window : DirectoryWindow) (cap : Nat) (ordinalBase : UInt32)
    (names : Array (Option String)) (rva : UInt32) (position : Nat) : Option ExportEntry :=
  if rva = 0 then none
  else some {
    ordinal := ordinalBase + UInt32.ofNat position
    rva := rva
    name := names.getD position none
    forwarder := (window.offset? rva).map (window.data.textAt · cap) }

/-- Reads the exports that the directory in a window describes. -/
def read (window : DirectoryWindow) (space : AddressSpace) (limits : Limits) :
    Except Fault ExportTable := do
  if window.data.size < ExportDirectory.byteSize then
    throw (.exportDirectoryShort window.data.size)
  let directory := ExportDirectory.read window.data
  let addresses ← addresses space limits directory
  let names := names space limits.stringLength addresses.length (namePairs space limits directory)
  return {
    directory := directory
    name := space.text? directory.nameRva limits.stringLength
    entries := addresses.zipIdx.filterMap fun (rva, position) =>
      entry? window limits.stringLength directory.ordinalBase names rva position }

end ExportTable

end PeImage
