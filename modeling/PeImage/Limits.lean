/-!
# Limits

Bounds on what is read from the tables of a hostile image. A table that runs past its limit is cut
there and never refused.
-/

namespace PeImage

/-- The bounds on each table. -/
structure Limits where
  /-- Import descriptors, one for each library. -/
  importDescriptors : Nat
  /-- Imports of one library. -/
  thunksPerImport : Nat
  /-- Imports of all libraries together. -/
  importEntries : Nat
  /-- Exported addresses, and exported names. -/
  exports : Nat
  /-- Nested resource directories, the root counted. -/
  resourceDepth : Nat
  /-- Resource directory entries of all directories together. -/
  resourceEntries : Nat
  /-- Bytes of a terminated string. -/
  stringLength : Nat
  deriving DecidableEq, Repr

namespace Limits

/-- Generous for honest images and harmless for hostile ones. -/
def standard : Limits where
  importDescriptors := 4096
  thunksPerImport := 65536
  importEntries := 262144
  exports := 65536
  resourceDepth := 16
  resourceEntries := 65536
  stringLength := 1024

/-- For scanning many images at a low cost each. -/
def minimal : Limits where
  importDescriptors := 256
  thunksPerImport := 4096
  importEntries := 16384
  exports := 4096
  resourceDepth := 4
  resourceEntries := 4096
  stringLength := 256

/-- The largest number a 64-bit word holds. -/
def largest : Nat := 0xFFFFFFFFFFFFFFFF

/-- No bound that a file could reach. -/
def unbounded : Limits where
  importDescriptors := largest
  thunksPerImport := largest
  importEntries := largest
  exports := largest
  resourceDepth := largest
  resourceEntries := largest
  stringLength := largest

end Limits

end PeImage
