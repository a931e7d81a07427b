import PeImage.AddressSpace
import PeImage.Limits

/-!
# Import table

The functions that an image takes from libraries. Each library has a descriptor, the list of which
ends with a descriptor of zeros or where the directory ends. A descriptor points to an array of
thunks, ended by a zero, each of which names a function by ordinal or by the address of its name.
Limits cut the lists short: the number of libraries, of functions of one library, and of functions
of all libraries together, which is spent in the order of the descriptors.
-/

namespace PeImage

/-- The descriptor of a library. -/
structure ImportDescriptor where
  originalFirstThunk : UInt32
  timeDateStamp : UInt32
  forwarderChain : UInt32
  nameRva : UInt32
  firstThunk : UInt32
  deriving DecidableEq, Repr

namespace ImportDescriptor

/-- The bytes of a descriptor. -/
def byteSize : Nat := 20

/-- The descriptor stored at an offset. -/
def readAt (data : Bytes) (offset : Nat) : ImportDescriptor where
  originalFirstThunk := data.u32 offset
  timeDateStamp := data.u32 (offset + 4)
  forwarderChain := data.u32 (offset + 8)
  nameRva := data.u32 (offset + 12)
  firstThunk := data.u32 (offset + 16)

/-- The descriptor that ends the list. -/
def zero : ImportDescriptor := ⟨0, 0, 0, 0, 0⟩

/-- The address of the array of thunks. The second array, which a loader overwrites, stands in for
a missing first one. -/
def lookupRva (descriptor : ImportDescriptor) : UInt32 :=
  if descriptor.originalFirstThunk = 0 then descriptor.firstThunk
  else descriptor.originalFirstThunk

/-- The descriptors before the one that ends the list, at most `limit` of them. -/
def list (data : Bytes) (limit : Nat) : List ImportDescriptor :=
  runWhile (· ≠ zero) (readAt data <| byteSize * ·) (min (data.size / byteSize) limit) 0

end ImportDescriptor

/-- A function taken from a library. -/
inductive ImportEntry
  /-- By its ordinal. -/
  | ordinal (number : UInt16)
  /-- By its name, with a hint where the library keeps it. -/
  | named (hint : UInt16) (name : String)
  /-- By a name whose address leads nowhere. -/
  | unresolved (rva : UInt32)
  deriving DecidableEq, Repr

namespace ImportEntry

/-- The hint and name at an address. The name has to have a byte, also if that is its end. -/
def hintName? (space : AddressSpace) (rva : UInt32) (cap : Nat) : Option (UInt16 × String) := do
  let offset ← space.offset? rva
  if offset + 2 < space.bytes.size ∧ 0 < cap then
    some (space.bytes.u16 offset, space.bytes.textAt (offset + 2) cap)
  else none

/-- The bytes of a thunk. -/
def thunkWidth (isWide : Bool) : Nat := if isWide then 8 else 4

/-- The thunk of which only the highest bit is set. -/
def ordinalMark (isWide : Bool) : Nat := if isWide then 0x8000000000000000 else 0x80000000

/-- The function that a thunk names: by ordinal if its highest bit is set, and otherwise by the
address in its low 31 bits. -/
def ofThunk (space : AddressSpace) (cap : Nat) (thunk : Nat) : ImportEntry :=
  if ordinalMark space.isWide ≤ thunk then .ordinal (UInt16.ofNat thunk)
  else
    let rva := UInt32.ofNat (thunk % 0x80000000)
    match hintName? space rva cap with
    | some (hint, name) => .named hint name
    | none => .unresolved rva

/-- The functions that the thunks from an address on name, at most `limit` of them. -/
def list (space : AddressSpace) (cap : Nat) (rva : UInt32) (limit : Nat) : List ImportEntry :=
  match space.offset? rva with
  | some offset =>
    (space.bytes.nonzeroWordsAt offset (thunkWidth space.isWide) limit).map (ofThunk space cap)
  | none => []

end ImportEntry

/-- A library with the functions taken from it. -/
structure ImportedLibrary where
  name : String
  descriptor : ImportDescriptor
  entries : List ImportEntry
  deriving DecidableEq, Repr

/-- The imports of an image. -/
structure ImportTable where
  libraries : List ImportedLibrary
  deriving DecidableEq, Repr

namespace ImportTable

/-- The first library of a name, in which the case of ASCII letters does not count. -/
def byName? (table : ImportTable) (name : String) : Option ImportedLibrary :=
  table.libraries.find? fun library =>
    library.name.toList.map Char.toLower = name.toList.map Char.toLower

/-- The libraries of a list of descriptors, with `budget` functions of all of them together. -/
def readLibraries (space : AddressSpace) (limits : Limits) :
    (budget : Nat) → List ImportDescriptor → Except Fault (List ImportedLibrary)
  | _, [] => .ok []
  | budget, descriptor :: rest => do
    let name ← space.text descriptor.nameRva limits.stringLength
    let entries := ImportEntry.list space limits.stringLength descriptor.lookupRva
      (min budget limits.thunksPerImport)
    let libraries ← readLibraries space limits (budget - entries.length) rest
    return ⟨name, descriptor, entries⟩ :: libraries

/-- Reads the imports that the directory in a window describes. -/
def read (window : DirectoryWindow) (space : AddressSpace) (limits : Limits) :
    Except Fault ImportTable := do
  if window.data.size < ImportDescriptor.byteSize then
    throw (.importDirectoryShort window.data.size)
  let descriptors := ImportDescriptor.list window.data limits.importDescriptors
  return ⟨← readLibraries space limits limits.importEntries descriptors⟩

end ImportTable

end PeImage
