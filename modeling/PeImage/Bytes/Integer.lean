import PeImage.Bytes.Basic

/-!
# Stored integers

The integer formats of one, two, four and eight bytes, unsigned or in two's complement, all least
significant byte first. Values are integers; `Holds` says which of them a format can store, and
exactly those come back from the bytes they are written as.
-/

namespace PeImage

/-- A fixed-width integer format. -/
inductive IntFormat
  | u8 | u16 | u32 | u64 | i16 | i32 | i64
  deriving DecidableEq, Repr

namespace IntFormat

/-- The bytes a value takes. -/
def width : IntFormat → Nat
  | u8 => 1
  | u16 | i16 => 2
  | u32 | i32 => 4
  | u64 | i64 => 8

/-- Whether negative values are stored, in two's complement. -/
def isSigned : IntFormat → Bool
  | u8 | u16 | u32 | u64 => false
  | i16 | i32 | i64 => true

/-- The count of values of the format. -/
def range (format : IntFormat) : Nat := LittleEndian.range format.width

/-- The values that the format can store. -/
def Holds (format : IntFormat) (value : Int) : Prop :=
  if format.isSigned then -(format.range / 2 : Nat) ≤ value ∧ value < (format.range / 2 : Nat)
  else 0 ≤ value ∧ value < format.range

/-- The value stored in a list of bytes. -/
def ofOctets (format : IntFormat) (octets : List UInt8) : Int :=
  let n : Int := LittleEndian.toNat octets
  if format.isSigned then n.bmod format.range else n

/-- The bytes a value is stored as. -/
def toOctets (format : IntFormat) (value : Int) : List UInt8 :=
  LittleEndian.ofNat format.width (value % format.range).toNat

/-- Reads the value at an offset and gives the offset after it, if all of its bytes lie inside. -/
def readAt? (format : IntFormat) (bytes : Bytes) (offset : Nat) : Option (Int × Nat) :=
  if offset + format.width ≤ bytes.size then
    some (format.ofOctets (bytes.octetsAt offset format.width), offset + format.width)
  else none

/-- Reads the value at the start of the bytes. -/
def read? (format : IntFormat) (bytes : Bytes) : Option Int :=
  (format.readAt? bytes 0).map Prod.fst

/-- A stored value takes the bytes of its width. -/
@[simp] theorem length_toOctets (format : IntFormat) (value : Int) :
    (format.toOctets value).length = format.width :=
  LittleEndian.length_ofNat _ _

end IntFormat

end PeImage
