/-!
# Section characteristics

The characteristics word of a section header. Twenty of its bits are flags of their own and four
more hold an alignment, written as one more than its binary logarithm; the other bits have no
meaning here and are kept.
-/

namespace PeImage

/-- A defined bit of the section characteristics word. -/
inductive SectionFlag
  | typeNoPad | code | initializedData | uninitializedData
  | linkOther | linkInfo | linkRemove | linkComdat
  | globalPointerRelative | memoryPurgeable | memoryLocked | memoryPreload
  | linkRelocationOverflow | memoryDiscardable | memoryNotCached | memoryNotPaged
  | memoryShared | memoryExecute | memoryRead | memoryWrite
  deriving DecidableEq, Repr

namespace SectionFlag

/-- The flags from the lowest bit to the highest. -/
def all : List SectionFlag :=
  [typeNoPad, code, initializedData, uninitializedData,
    linkOther, linkInfo, linkRemove, linkComdat,
    globalPointerRelative, memoryPurgeable, memoryLocked, memoryPreload,
    linkRelocationOverflow, memoryDiscardable, memoryNotCached, memoryNotPaged,
    memoryShared, memoryExecute, memoryRead, memoryWrite]

/-- The word that has only the bit of a flag. -/
def mask : SectionFlag → UInt32
  | typeNoPad => 0x00000008
  | code => 0x00000020
  | initializedData => 0x00000040
  | uninitializedData => 0x00000080
  | linkOther => 0x00000100
  | linkInfo => 0x00000200
  | linkRemove => 0x00000800
  | linkComdat => 0x00001000
  | globalPointerRelative => 0x00008000
  | memoryPurgeable => 0x00020000
  | memoryLocked => 0x00040000
  | memoryPreload => 0x00080000
  | linkRelocationOverflow => 0x01000000
  | memoryDiscardable => 0x02000000
  | memoryNotCached => 0x04000000
  | memoryNotPaged => 0x08000000
  | memoryShared => 0x10000000
  | memoryExecute => 0x20000000
  | memoryRead => 0x40000000
  | memoryWrite => 0x80000000

/-- The name of a flag. -/
def name : SectionFlag → String
  | typeNoPad => "TYPE_NO_PAD"
  | code => "CNT_CODE"
  | initializedData => "CNT_INITIALIZED_DATA"
  | uninitializedData => "CNT_UNINITIALIZED_DATA"
  | linkOther => "LNK_OTHER"
  | linkInfo => "LNK_INFO"
  | linkRemove => "LNK_REMOVE"
  | linkComdat => "LNK_COMDAT"
  | globalPointerRelative => "GPREL"
  | memoryPurgeable => "MEM_PURGEABLE"
  | memoryLocked => "MEM_LOCKED"
  | memoryPreload => "MEM_PRELOAD"
  | linkRelocationOverflow => "LNK_NRELOC_OVFL"
  | memoryDiscardable => "MEM_DISCARDABLE"
  | memoryNotCached => "MEM_NOT_CACHED"
  | memoryNotPaged => "MEM_NOT_PAGED"
  | memoryShared => "MEM_SHARED"
  | memoryExecute => "MEM_EXECUTE"
  | memoryRead => "MEM_READ"
  | memoryWrite => "MEM_WRITE"

end SectionFlag

/-- The characteristics word of a section. -/
structure SectionFlags where
  bits : UInt32
  deriving DecidableEq, Repr

namespace SectionFlags

/-- Whether a flag is set. -/
def contains (flags : SectionFlags) (flag : SectionFlag) : Bool := flags.bits &&& flag.mask ≠ 0

/-- The flags that are set, from the lowest bit to the highest. -/
def toList (flags : SectionFlags) : List SectionFlag := SectionFlag.all.filter flags.contains

/-- The bits of all defined flags. -/
def definedBits : UInt32 := SectionFlag.all.foldr (fun flag word => flag.mask ||| word) 0

/-- The bits that belong to no flag; those of the alignment are among them. -/
def undefinedBits (flags : SectionFlags) : UInt32 := flags.bits &&& ~~~definedBits

/-- The alignment in bytes, if one is given: 1 to 14 stand for 1, 2, 4, … 8192. -/
def alignment? (flags : SectionFlags) : Option Nat :=
  match flags.bits.toNat / 0x100000 % 16 with
  | 0 => none
  | 15 => none
  | exponent + 1 => some (1 <<< exponent)

end SectionFlags

end PeImage
