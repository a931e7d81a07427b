import PeImage.Limits
import PeImage.Resource.Tree
import PeImage.Text.Utf16

/-!
# Reading resources

A directory is stored as a fixed part followed by one row for each entry. A row has two words: the
identifier, which is a number or the offset of a name, and the offset of a resource or of a
further directory. All offsets count from the start of the resource data, so a hostile image can
share parts of the tree, nest it without end or make a directory contain itself.

The walk is depth first. It ends with a fault at a directory that contains itself, leaves out
directories nested too deeply, and stops everywhere once its budget of entries is spent; a row
costs one entry also if what it refers to is left out.
-/

namespace PeImage

/-- A row of a directory. -/
structure ResourceRow where
  id : UInt32
  target : UInt32
  deriving DecidableEq, Repr

namespace ResourceRow

/-- The bytes of a row. -/
def byteSize : Nat := 8

/-- The row stored at an offset. -/
def readAt (window : Bytes) (offset : Nat) : ResourceRow :=
  ⟨window.u32 offset, window.u32 (offset + 4)⟩

end ResourceRow

/-- The offset in the low 31 bits of a word whose highest bit is set; otherwise the word is not
an offset of this kind. -/
def markedOffset? (word : UInt32) : Option Nat :=
  if 0x80000000 ≤ word then some (word.toNat - 0x80000000) else none

/-- The identifier that the first word of a row stands for. -/
def ResourceId.read (window : Bytes) (word : UInt32) : Except Fault ResourceId :=
  match markedOffset? word with
  | none => .ok (.number word)
  | some offset =>
    match Utf16.countedUnits? window offset with
    | some units => .ok (.name (Utf16.text units))
    | none => .error .outOfBounds

namespace ResourceData

/-- The bytes of a data entry. -/
def byteSize : Nat := 16

/-- The data entry stored at an offset. -/
def readAt (window : Bytes) (offset : Nat) : ResourceData where
  rva := window.u32 offset
  size := window.u32 (offset + 4)
  codePage := window.u32 (offset + 8)
  reserved := window.u32 (offset + 12)

/-- The data entry at an offset, if all of its bytes lie inside. -/
def read (window : Bytes) (offset : Nat) : Except Fault ResourceData :=
  if offset + byteSize ≤ window.size then .ok (readAt window offset) else .error .outOfBounds

end ResourceData

namespace ResourceTable

/-- The bytes of the fixed part of a directory. -/
def byteSize : Nat := 16

/-- The fixed part of the directory stored at an offset. -/
def readAt (window : Bytes) (offset : Nat) : ResourceTable where
  characteristics := window.u32 offset
  timeDateStamp := window.u32 (offset + 4)
  majorVersion := window.u16 (offset + 8)
  minorVersion := window.u16 (offset + 10)

/-- The number of rows of the directory stored at an offset: those with names, and those with
numbers. -/
def rowCount (window : Bytes) (offset : Nat) : Nat :=
  (window.u16 (offset + 12)).toNat + (window.u16 (offset + 14)).toNat

end ResourceTable

/-- A reader of the directory at an offset. It takes the budget of entries and gives back what is
left of it. -/
abbrev ResourceReader (α : Type) := (offset budget : Nat) → Except Fault (α × Nat)

/-- The entries of the rows from an offset on. Directories among them are read by `child?`, or left
out where there is none. -/
def ResourceEntries.read (window : Bytes) (child? : Option (ResourceReader ResourceDirectory)) :
    (rows : Nat) → ResourceReader ResourceEntries
  | 0, _, budget => .ok (.nil, budget)
  | _ + 1, _, 0 => .ok (.nil, 0)
  | rows + 1, offset, budget + 1 =>
    if window.size < offset + ResourceRow.byteSize then .error .outOfBounds
    else do
      let row := ResourceRow.readAt window offset
      let id ← ResourceId.read window row.id
      let next := offset + ResourceRow.byteSize
      match markedOffset? row.target, child? with
      | none, _ =>
        let data ← ResourceData.read window row.target.toNat
        let (rest, budget) ← read window child? rows next budget
        return (.data id data rest, budget)
      | some _, none => read window child? rows next budget
      | some target, some child =>
        let (inner, budget) ← child target budget
        let (rest, budget) ← read window child? rows next budget
        return (.directory id inner.table inner.entries rest, budget)

namespace ResourceDirectory

/-- A reader of directories that is told the offsets of the directories around them. -/
abbrev Walker := (path : List Nat) → ResourceReader ResourceDirectory

/-- The directory at an offset inside the directories of `path`. The directories in it are read by
`child?`, or left out where there is none. -/
def readTable (window : Bytes) (child? : Option Walker) : Walker := fun path offset budget =>
  if offset ∈ path then .error (.resourceCycle offset)
  else if window.size < offset + ResourceTable.byteSize then .error .outOfBounds
  else do
    let (entries, budget) ← ResourceEntries.read window (child?.map (· (offset :: path)))
      (ResourceTable.rowCount window offset) (offset + ResourceTable.byteSize) budget
    return (⟨ResourceTable.readAt window offset, entries⟩, budget)

/-- Reads directories with at most `below` levels of directories under them. -/
def walk (window : Bytes) : (below : Nat) → Walker
  | 0 => readTable window none
  | below + 1 => readTable window (some (walk window below))

/-- Reads the tree of resources that starts with the directory at the start of a window. -/
def read (window : DirectoryWindow) (limits : Limits) : Except Fault ResourceDirectory :=
  (walk window.data (limits.resourceDepth - 1) [] 0 limits.resourceEntries).map Prod.fst

end ResourceDirectory

end PeImage
