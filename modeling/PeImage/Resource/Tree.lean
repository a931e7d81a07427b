import PeImage.AddressSpace
import PeImage.Resource.Kind

/-!
# Resource tree

The resources of an image form a tree of directories. Every entry of a directory has a number or
a name and is either a resource or a directory of its own; the path of these identifiers, usually
kind, name and language, leads to a resource.
-/

namespace PeImage

/-- What identifies an entry in its directory. -/
inductive ResourceId
  | number (number : UInt32)
  | name (text : String)
  deriving DecidableEq, Repr

/-- The kind that an identifier stands for at the first level of the tree. Names stand for none,
also if they are written as numbers. -/
def ResourceId.kind? : ResourceId → Option ResourceKind
  | number n => ResourceKind.ofNumber? n
  | name _ => none

/-- Where the bytes of a resource are. -/
structure ResourceData where
  rva : UInt32
  size : UInt32
  codePage : UInt32
  reserved : UInt32
  deriving DecidableEq, Repr

/-- The bytes of a resource, as far as the address space has them. -/
def ResourceData.bytes? (data : ResourceData) (space : AddressSpace) : Option Bytes :=
  space.slice? data.rva data.size.toNat

/-- The fixed part of a directory, apart from the numbers of its entries. -/
structure ResourceTable where
  characteristics : UInt32
  timeDateStamp : UInt32
  majorVersion : UInt16
  minorVersion : UInt16
  deriving DecidableEq, Repr

/-- The entries of a directory in the order of the file, each followed by the rest of them. -/
inductive ResourceEntries
  | nil
  /-- A resource. -/
  | data (id : ResourceId) (data : ResourceData) (rest : ResourceEntries)
  /-- A directory with entries of its own. -/
  | directory (id : ResourceId) (table : ResourceTable) (children : ResourceEntries)
      (rest : ResourceEntries)
  deriving DecidableEq, Repr

/-- A directory of resources. -/
structure ResourceDirectory where
  table : ResourceTable
  entries : ResourceEntries
  deriving DecidableEq, Repr

/-- A resource with the path of identifiers that leads to it. -/
structure ResourceLeaf where
  path : List ResourceId
  data : ResourceData
  deriving DecidableEq, Repr

/-- The kind of a resource, which the first identifier of its path tells. -/
def ResourceLeaf.kind? (leaf : ResourceLeaf) : Option ResourceKind :=
  leaf.path.head?.bind ResourceId.kind?

namespace ResourceEntries

/-- The number of entries, not counting those of the directories among them. -/
def length : ResourceEntries → Nat
  | nil => 0
  | data _ _ rest => rest.length + 1
  | directory _ _ _ rest => rest.length + 1

/-- The number of entries at all levels. -/
def count : ResourceEntries → Nat
  | nil => 0
  | data _ _ rest => rest.count + 1
  | directory _ _ children rest => children.count + rest.count + 1

/-- The resources among and below the entries, each directory before what follows it. The
identifiers of the directories around the entries are given from the inside outwards. -/
def leaves (around : List ResourceId) : ResourceEntries → List ResourceLeaf
  | nil => []
  | data id leaf rest => ⟨(id :: around).reverse, leaf⟩ :: rest.leaves around
  | directory id _ children rest => children.leaves (id :: around) ++ rest.leaves around

end ResourceEntries

namespace ResourceDirectory

/-- All resources of a tree, depth first. -/
def leaves (root : ResourceDirectory) : List ResourceLeaf := root.entries.leaves []

/-- The resources of a kind. -/
def leavesOfKind (root : ResourceDirectory) (kind : ResourceKind) : List ResourceLeaf :=
  root.leaves.filter (·.kind? = some kind)

end ResourceDirectory

end PeImage
