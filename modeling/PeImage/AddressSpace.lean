import PeImage.Fault
import PeImage.Text.Terminated

/-!
# Address space

The tables of an image refer to each other by relative virtual addresses. An address space says
where in a byte string the byte of such an address is kept, and a read at an address is a read of
those bytes up to their end. An address leads nowhere when it has no place, or when its place is
not inside the bytes.
-/

namespace PeImage

/-- Bytes that are read by relative virtual address. -/
structure AddressSpace where
  bytes : Bytes
  /-- The offset at which the byte of an address would be kept. -/
  place? : UInt32 → Option Nat
  /-- Whether tables have the layouts of wide images. -/
  isWide : Bool

namespace AddressSpace

/-- The addresses from `base` on, one for each byte. -/
def flat (base : UInt32) (bytes : Bytes) (isWide : Bool) : AddressSpace where
  bytes := bytes
  place? := fun rva => if base ≤ rva then some (rva.toNat - base.toNat) else none
  isWide := isWide

/-- The offset at which the byte of an address is kept. -/
def offset? (space : AddressSpace) (rva : UInt32) : Option Nat :=
  (space.place? rva).filter (· < space.bytes.size)

/-- The bytes from an address on, at most `length` of them and fewer where they end first. -/
def slice? (space : AddressSpace) (rva : UInt32) (length : Nat) : Option Bytes :=
  (space.offset? rva).map (space.bytes.clip · length)

/-- The whole little-endian numbers of `width` bytes from an address on, at most `limit` of
them. -/
def words? (space : AddressSpace) (rva : UInt32) (width limit : Nat) : Option (List Nat) :=
  (space.offset? rva).map (space.bytes.wordsAt · width limit)

/-- The terminated string at an address. With a cap of zero nothing of it can be seen, so it
counts as unresolved. -/
def text? (space : AddressSpace) (rva : UInt32) (cap : Nat) : Option String :=
  if cap = 0 then none else (space.offset? rva).map (space.bytes.textAt · cap)

/-- The terminated string at an address, which is expected to lead somewhere. -/
def text (space : AddressSpace) (rva : UInt32) (cap : Nat) : Except Fault String :=
  match space.text? rva cap with
  | some text => .ok text
  | none => .error (.stringUnresolved rva)

end AddressSpace

/-- The bytes of a table together with the address of the first one. -/
structure DirectoryWindow where
  rva : UInt32
  data : Bytes

namespace DirectoryWindow

/-- The place of an address in the window, if it lies inside. -/
def offset? (window : DirectoryWindow) (rva : UInt32) : Option Nat :=
  if window.rva ≤ rva ∧ rva.toNat - window.rva.toNat < window.data.size then
    some (rva.toNat - window.rva.toNat)
  else none

/-- Whether an address lies in the window. -/
def contains (window : DirectoryWindow) (rva : UInt32) : Bool := (window.offset? rva).isSome

end DirectoryWindow

/-- The window of the bytes from an address on; it is empty where the address leads nowhere. -/
def AddressSpace.window (space : AddressSpace) (rva : UInt32) (length : Nat) : DirectoryWindow :=
  ⟨rva, (space.slice? rva length).getD .empty⟩

end PeImage
