/-!
# Data directories

An optional header declares up to sixteen tables, each at a fixed place of its directory array and
each by the address and size of the table. `DirectoryMap` is the map from the places to what is
declared there; its entries are listed in the order of the array.
-/

namespace PeImage

/-- The tables an optional header can declare. -/
inductive DirectoryKey
  | exportTable | importTable | resourceTable | exceptionTable
  | certificateTable | baseRelocationTable | debug | architecture
  | globalPointer | tlsTable | loadConfigTable | boundImport
  | importAddressTable | delayImportDescriptor | clrRuntimeHeader | reserved
  deriving DecidableEq, Repr

namespace DirectoryKey

/-- The tables in the order of the directory array. -/
def all : List DirectoryKey :=
  [exportTable, importTable, resourceTable, exceptionTable,
    certificateTable, baseRelocationTable, debug, architecture,
    globalPointer, tlsTable, loadConfigTable, boundImport,
    importAddressTable, delayImportDescriptor, clrRuntimeHeader, reserved]

/-- The place of a table in the directory array. -/
def index : DirectoryKey → Fin 16
  | exportTable => 0
  | importTable => 1
  | resourceTable => 2
  | exceptionTable => 3
  | certificateTable => 4
  | baseRelocationTable => 5
  | debug => 6
  | architecture => 7
  | globalPointer => 8
  | tlsTable => 9
  | loadConfigTable => 10
  | boundImport => 11
  | importAddressTable => 12
  | delayImportDescriptor => 13
  | clrRuntimeHeader => 14
  | reserved => 15

/-- The table at a place of the directory array. -/
def ofIndex? (index : Nat) : Option DirectoryKey := all[index]?

/-- The name of a table. -/
def name : DirectoryKey → String
  | exportTable => "ExportTable"
  | importTable => "ImportTable"
  | resourceTable => "ResourceTable"
  | exceptionTable => "ExceptionTable"
  | certificateTable => "CertificateTable"
  | baseRelocationTable => "BaseRelocationTable"
  | debug => "Debug"
  | architecture => "Architecture"
  | globalPointer => "GlobalPtr"
  | tlsTable => "TlsTable"
  | loadConfigTable => "LoadConfigTable"
  | boundImport => "BoundImport"
  | importAddressTable => "Iat"
  | delayImportDescriptor => "DelayImportDescriptor"
  | clrRuntimeHeader => "ClrRuntimeHeader"
  | reserved => "Reserved"

/-- The table of a name. -/
def ofName? (name : String) : Option DirectoryKey := all.find? (·.name = name)

/-- Every table is found at its place. -/
@[simp] theorem ofIndex?_index (key : DirectoryKey) : ofIndex? key.index = some key := by
  cases key <;> rfl

/-- No two tables share a place. -/
theorem index_injective {a b : DirectoryKey} (h : a.index = b.index) : a = b := by
  have := ofIndex?_index a
  rw [h, ofIndex?_index] at this
  exact (Option.some.inj this).symm

/-- Every table has its turn in the order of the array. -/
theorem mem_all (key : DirectoryKey) : key ∈ all := by
  cases key <;> decide

/-- Every place of the directory array belongs to a table. -/
theorem exists_index {i : Nat} (h : i < 16) : ∃ key : DirectoryKey, key.index = i := by
  have hall : ∀ i : Fin 16, ∃ key ∈ all, key.index = i := by decide
  obtain ⟨key, _, hkey⟩ := hall ⟨i, h⟩
  exact ⟨key, congrArg Fin.val hkey⟩

/-- Every table but the reserved one has a place in front of the last. -/
theorem index_lt_of_ne_reserved {key : DirectoryKey} (h : key ≠ .reserved) :
    (key.index : Nat) < 15 := by
  have hplace : (key.index : Nat) ≠ 15 := fun hlast => h (index_injective (Fin.ext hlast))
  omega

end DirectoryKey

/-- Where a table is declared to lie. -/
structure DirectoryRange where
  address : UInt32
  size : UInt32
  deriving DecidableEq, Repr

/-- What is declared at each place of the directory array. -/
structure DirectoryMap where
  slots : Vector (Option DirectoryRange) 16
  deriving DecidableEq, Repr

namespace DirectoryMap

/-- Nothing is declared. -/
def empty : DirectoryMap := ⟨Vector.replicate 16 none⟩

/-- Where a table is declared, if it is. -/
def get? (map : DirectoryMap) (key : DirectoryKey) : Option DirectoryRange := map.slots[key.index]

/-- The map with a table declared, in place of any earlier declaration of it. -/
def insert (map : DirectoryMap) (key : DirectoryKey) (range : DirectoryRange) : DirectoryMap :=
  ⟨map.slots.set key.index (some range)⟩

/-- The map without a declaration of a table. -/
def erase (map : DirectoryMap) (key : DirectoryKey) : DirectoryMap :=
  ⟨map.slots.set key.index none⟩

/-- The declared tables in the order of the directory array. -/
def toList (map : DirectoryMap) : List (DirectoryKey × DirectoryRange) :=
  DirectoryKey.all.filterMap fun key => (map.get? key).map (key, ·)

@[simp] theorem get?_empty (key : DirectoryKey) : empty.get? key = none := by
  simp [empty, get?]

/-- A declaration is seen at its own table and nowhere else. -/
theorem get?_insert (map : DirectoryMap) (key other : DirectoryKey) (range : DirectoryRange) :
    (map.insert key range).get? other = if key = other then some range else map.get? other := by
  by_cases h : key = other
  · subst h
    simp [insert, get?]
  · have hindex : (key.index : Nat) ≠ other.index := fun heq =>
      h (DirectoryKey.index_injective (Fin.ext heq))
    simp [insert, get?, h, Vector.getElem_set_ne, hindex]

/-- A withdrawn declaration is missing at its own table and nowhere else. -/
theorem get?_erase (map : DirectoryMap) (key other : DirectoryKey) :
    (map.erase key).get? other = if key = other then none else map.get? other := by
  by_cases h : key = other
  · subst h
    simp [erase, get?]
  · have hindex : (key.index : Nat) ≠ other.index := fun heq =>
      h (DirectoryKey.index_injective (Fin.ext heq))
    simp [erase, get?, h, Vector.getElem_set_ne, hindex]

/-- The list holds exactly what is declared. -/
theorem mem_toList (map : DirectoryMap) (key : DirectoryKey) (range : DirectoryRange) :
    (key, range) ∈ map.toList ↔ map.get? key = some range := by
  simp only [toList, List.mem_filterMap, Option.map_eq_some_iff, Prod.mk.injEq]
  constructor
  · rintro ⟨_, _, _, h, rfl, rfl⟩
    exact h
  · intro h
    exact ⟨key, DirectoryKey.mem_all key, range, h, rfl, rfl⟩

/-- Two maps with the same declarations are equal. -/
theorem ext_get? {a b : DirectoryMap} (h : ∀ key, a.get? key = b.get? key) : a = b := by
  obtain ⟨slots⟩ := a
  obtain ⟨others⟩ := b
  refine congrArg mk (Vector.ext fun i hi => ?_)
  obtain ⟨key, rfl⟩ := DirectoryKey.exists_index hi
  exact h key

/-- The entries of the array from the place of a table on start with what is declared for it. -/
theorem drop_slots (map : DirectoryMap) (key : DirectoryKey) :
    map.slots.toList.drop key.index =
      map.get? key :: map.slots.toList.drop (key.index + 1) := by
  rw [List.drop_eq_getElem_cons (by simp)]
  simp [get?]

end DirectoryMap

end PeImage
