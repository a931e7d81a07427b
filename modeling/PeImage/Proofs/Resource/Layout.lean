import PeImage.Proofs.Bytes.Stored
import PeImage.Resource.Read

/-!
# The layout of a resource tree

When a window lays out a tree of resources, said by the bytes that each part of the tree is
written as and without a reader. A directory is its fixed part followed by its rows; a row names
an identifier and leads to a data entry or to a further directory. Nothing is said of where the
parts lie, so they may be shared and overlap.

The small readers accept exactly what is stored, and therefore a window lays out no more than one
tree at an offset.
-/

namespace PeImage

/-- The highest bit of a word, which marks that the others are an offset. -/
def offsetMark : Nat := 0x80000000

/-- The bytes of a row. -/
def ResourceRow.octets (row : ResourceRow) : List UInt8 :=
  LittleEndian.word32 row.id ++ LittleEndian.word32 row.target

/-- The bytes of a data entry. -/
def ResourceData.octets (data : ResourceData) : List UInt8 :=
  LittleEndian.word32 data.rva ++ (LittleEndian.word32 data.size ++
    (LittleEndian.word32 data.codePage ++ LittleEndian.word32 data.reserved))

/-- The bytes of the fixed part of a directory with the numbers of its rows, first those with names
and then those with numbers. -/
def ResourceTable.octets (table : ResourceTable) (named numbered : UInt16) : List UInt8 :=
  LittleEndian.word32 table.characteristics ++ (LittleEndian.word32 table.timeDateStamp ++
    (LittleEndian.word16 table.majorVersion ++ (LittleEndian.word16 table.minorVersion ++
      (LittleEndian.word16 named ++ LittleEndian.word16 numbered))))

/-- The first word of a row stands for an identifier: a number, or the marked offset of the counted
string of a name. -/
inductive ResourceId.Stored (window : Bytes) : UInt32 → ResourceId → Prop
  | number (word : UInt32) (hplain : word.toNat < offsetMark) : Stored window word (.number word)
  | name (word : UInt32) (offset : Nat) (units : List UInt16)
      (hmarked : word.toNat = offsetMark + offset) (hcount : units.length < 0x10000)
      (hunits : window.Stores offset (Utf16.countedOctets units)) :
      Stored window word (.name (Utf16.text units))

/-- The rows from an offset on lay out entries: the second word of a row is the offset of a data
entry, or the marked offset of a directory that is laid out in the same way. -/
inductive ResourceEntries.LaidOut (window : Bytes) :
    (offset rows : Nat) → ResourceEntries → Prop
  | nil (offset : Nat) : LaidOut window offset 0 .nil
  | data {offset rows : Nat} {row : ResourceRow} {id : ResourceId} {data : ResourceData}
      {rest : ResourceEntries} (hrow : window.Stores offset row.octets)
      (hid : id.Stored window row.id) (hplain : row.target.toNat < offsetMark)
      (hdata : window.Stores row.target.toNat data.octets)
      (hrest : LaidOut window (offset + ResourceRow.byteSize) rows rest) :
      LaidOut window offset (rows + 1) (.data id data rest)
  | directory {offset rows child : Nat} {row : ResourceRow} {id : ResourceId}
      {table : ResourceTable} {named numbered : UInt16} {children rest : ResourceEntries}
      (hrow : window.Stores offset row.octets) (hid : id.Stored window row.id)
      (hmarked : row.target.toNat = offsetMark + child)
      (htable : window.Stores child (table.octets named numbered))
      (hchildren : LaidOut window (child + ResourceTable.byteSize)
        (named.toNat + numbered.toNat) children)
      (hrest : LaidOut window (offset + ResourceRow.byteSize) rows rest) :
      LaidOut window offset (rows + 1) (.directory id table children rest)

/-- A window lays out a directory at an offset. -/
def ResourceDirectory.LaidOut (window : Bytes) (offset : Nat) (directory : ResourceDirectory) :
    Prop :=
  ∃ named numbered : UInt16, window.Stores offset (directory.table.octets named numbered) ∧
    directory.entries.LaidOut window (offset + ResourceTable.byteSize)
      (named.toNat + numbered.toNat)

/-- The levels of directories among the entries. -/
def ResourceEntries.nesting : ResourceEntries → Nat
  | nil => 0
  | data _ _ rest => rest.nesting
  | directory _ _ children rest => max (children.nesting + 1) rest.nesting

/-- The levels of directories in a tree, the root counted. -/
def ResourceDirectory.nesting (root : ResourceDirectory) : Nat := root.entries.nesting + 1

/-- A word is marked with an offset exactly when it is read so. -/
theorem markedOffset?_eq_some (word : UInt32) (offset : Nat) :
    markedOffset? word = some offset ↔ word.toNat = offsetMark + offset := by
  have hmark : (0x80000000 : UInt32) ≤ word ↔ offsetMark ≤ word.toNat := UInt32.le_iff_toNat_le
  unfold markedOffset?
  split
  · rename_i h
    have hle := hmark.mp h
    simp only [offsetMark, Option.some.injEq] at hle ⊢
    omega
  · rename_i h
    have hlt : ¬offsetMark ≤ word.toNat := fun hle => h (hmark.mpr hle)
    simp only [reduceCtorEq, false_iff]
    omega

/-- A word is plain exactly when no offset is read from it. -/
theorem markedOffset?_eq_none (word : UInt32) :
    markedOffset? word = none ↔ word.toNat < offsetMark := by
  cases h : markedOffset? word with
  | none =>
    simp only [true_iff]
    refine Nat.not_le.mp fun hlarge => ?_
    have hsome := (markedOffset?_eq_some word (word.toNat - offsetMark)).mpr (by omega)
    rw [h] at hsome
    cases hsome
  | some offset =>
    have hvalue := (markedOffset?_eq_some word offset).mp h
    simp only [reduceCtorEq, false_iff]
    omega

/-- A row is stored where it is read. -/
theorem ResourceRow.stores_octets (window : Bytes) (offset : Nat) (row : ResourceRow) :
    window.Stores offset row.octets ↔
      offset + byteSize ≤ window.size ∧ readAt window offset = row := by
  obtain ⟨id, target⟩ := row
  simp only [octets, readAt, byteSize, Bytes.stores_append, Bytes.stores_word32,
    LittleEndian.length_word32, mk.injEq]
  apply Iff.intro
  · intro h
    obtain ⟨⟨_, rfl⟩, hend, rfl⟩ := h
    exact ⟨by omega, rfl, rfl⟩
  · intro h
    obtain ⟨hend, rfl, rfl⟩ := h
    exact ⟨⟨by omega, rfl⟩, by omega, rfl⟩

/-- A data entry is stored exactly where it is read. -/
theorem ResourceData.read_eq_ok (window : Bytes) (offset : Nat) (data : ResourceData) :
    read window offset = .ok data ↔ window.Stores offset data.octets := by
  obtain ⟨rva, size, codePage, reserved⟩ := data
  have hread : read window offset = .ok ⟨rva, size, codePage, reserved⟩ ↔
      offset + byteSize ≤ window.size ∧
        readAt window offset = ⟨rva, size, codePage, reserved⟩ := by
    by_cases hend : offset + byteSize ≤ window.size <;> simp [read, hend]
  rw [hread]
  simp only [octets, readAt, byteSize, Bytes.stores_append, Bytes.stores_word32,
    LittleEndian.length_word32, mk.injEq, Nat.add_assoc, Nat.reduceAdd]
  apply Iff.intro
  · intro h
    obtain ⟨hend, rfl, rfl, rfl, rfl⟩ := h
    exact ⟨⟨by omega, rfl⟩, ⟨by omega, rfl⟩, ⟨by omega, rfl⟩, hend, rfl⟩
  · intro h
    obtain ⟨⟨_, rfl⟩, ⟨_, rfl⟩, ⟨_, rfl⟩, hend, rfl⟩ := h
    exact ⟨hend, rfl, rfl, rfl, rfl⟩

/-- The fixed part of a directory is stored where it and the numbers of rows are read. -/
theorem ResourceTable.stores_octets (window : Bytes) (offset : Nat) (table : ResourceTable)
    (named numbered : UInt16) :
    window.Stores offset (table.octets named numbered) ↔
      offset + byteSize ≤ window.size ∧ readAt window offset = table ∧
        window.u16 (offset + 12) = named ∧ window.u16 (offset + 14) = numbered := by
  obtain ⟨characteristics, timeDateStamp, majorVersion, minorVersion⟩ := table
  simp only [octets, readAt, byteSize, Bytes.stores_append, Bytes.stores_word32,
    Bytes.stores_word16, LittleEndian.length_word32, LittleEndian.length_word16, mk.injEq,
    Nat.add_assoc, Nat.reduceAdd]
  apply Iff.intro
  · intro h
    obtain ⟨⟨_, rfl⟩, ⟨_, rfl⟩, ⟨_, rfl⟩, ⟨_, rfl⟩, ⟨_, rfl⟩, hend, rfl⟩ := h
    exact ⟨hend, ⟨rfl, rfl, rfl, rfl⟩, rfl, rfl⟩
  · intro h
    obtain ⟨hend, ⟨rfl, rfl, rfl, rfl⟩, rfl, rfl⟩ := h
    exact ⟨⟨by omega, rfl⟩, ⟨by omega, rfl⟩, ⟨by omega, rfl⟩, ⟨by omega, rfl⟩, ⟨by omega, rfl⟩,
      hend, rfl⟩

/-- An identifier is read exactly where it is stored. -/
theorem ResourceId.read_eq_ok (window : Bytes) (word : UInt32) (id : ResourceId) :
    read window word = .ok id ↔ id.Stored window word := by
  unfold read
  cases hmark : markedOffset? word with
  | none =>
    have hplain := (markedOffset?_eq_none word).mp hmark
    apply Iff.intro
    · intro h
      obtain rfl := Except.ok.inj h
      exact .number word hplain
    · intro h
      cases h with
      | number => rfl
      | name offset units hmarked => omega
  | some offset =>
    have hmarked := (markedOffset?_eq_some word offset).mp hmark
    apply Iff.intro
    · intro h
      dsimp only at h
      split at h
      · rename_i units hunits
        obtain rfl := Except.ok.inj h
        obtain ⟨hcount, hstored⟩ := (Utf16.countedUnits?_eq_some window offset units).mp hunits
        exact .name word offset units hmarked hcount hstored
      · cases h
    · intro h
      cases h with
      | number hplain => omega
      | name other units hother hcount hunits =>
        obtain rfl : other = offset := by omega
        dsimp only
        rw [(Utf16.countedUnits?_eq_some window other units).mpr ⟨hcount, hunits⟩]

/-- One row is stored at an offset. -/
theorem ResourceRow.stored_unique {window : Bytes} {offset : Nat} {a b : ResourceRow}
    (ha : window.Stores offset a.octets) (hb : window.Stores offset b.octets) : a = b :=
  ((stores_octets window offset a).mp ha).2.symm.trans ((stores_octets window offset b).mp hb).2

/-- A word stands for one identifier. -/
theorem ResourceId.Stored.unique {window : Bytes} {word : UInt32} {a b : ResourceId}
    (ha : a.Stored window word) (hb : b.Stored window word) : a = b :=
  Except.ok.inj (((read_eq_ok window word a).mpr ha).symm.trans ((read_eq_ok window word b).mpr hb))

/-- One data entry is stored at an offset. -/
theorem ResourceData.stored_unique {window : Bytes} {offset : Nat} {a b : ResourceData}
    (ha : window.Stores offset a.octets) (hb : window.Stores offset b.octets) : a = b :=
  Except.ok.inj
    (((read_eq_ok window offset a).mpr ha).symm.trans ((read_eq_ok window offset b).mpr hb))

/-- One fixed part, with its numbers of rows, is stored at an offset. -/
theorem ResourceTable.stored_unique {window : Bytes} {offset : Nat} {a b : ResourceTable}
    {named numbered named' numbered' : UInt16}
    (ha : window.Stores offset (a.octets named numbered))
    (hb : window.Stores offset (b.octets named' numbered')) :
    a = b ∧ named = named' ∧ numbered = numbered' := by
  obtain ⟨_, rfl, rfl, rfl⟩ := (stores_octets window offset a named numbered).mp ha
  obtain ⟨_, rfl, rfl, rfl⟩ := (stores_octets window offset b named' numbered').mp hb
  exact ⟨rfl, rfl, rfl⟩

/-- Rows lay out one list of entries at most. -/
theorem ResourceEntries.LaidOut.unique {window : Bytes} {offset rows : Nat}
    {a b : ResourceEntries} (ha : a.LaidOut window offset rows) (hb : b.LaidOut window offset rows) :
    a = b := by
  induction ha generalizing b with
  | nil => cases hb; rfl
  | data hrow hid hplain hdata _ ih =>
    cases hb with
    | data hrow' hid' _ hdata' hrest' =>
      obtain rfl := ResourceRow.stored_unique hrow hrow'
      rw [hid.unique hid', ResourceData.stored_unique hdata hdata', ih hrest']
    | directory hrow' _ hmarked =>
      obtain rfl := ResourceRow.stored_unique hrow hrow'
      omega
  | directory hrow hid hmarked htable _ _ ihchildren ihrest =>
    cases hb with
    | data hrow' _ hplain =>
      obtain rfl := ResourceRow.stored_unique hrow hrow'
      omega
    | directory hrow' hid' hmarked' htable' hchildren' hrest' =>
      obtain rfl := ResourceRow.stored_unique hrow hrow'
      obtain rfl := Nat.add_left_cancel (hmarked.symm.trans hmarked')
      obtain ⟨rfl, rfl, rfl⟩ := ResourceTable.stored_unique htable htable'
      rw [hid.unique hid', ihchildren hchildren', ihrest hrest']

/-- A window lays out one directory at an offset at most. -/
theorem ResourceDirectory.LaidOut.unique {window : Bytes} {offset : Nat} {a b : ResourceDirectory}
    (ha : a.LaidOut window offset) (hb : b.LaidOut window offset) : a = b := by
  obtain ⟨table, entries⟩ := a
  obtain ⟨table', entries'⟩ := b
  obtain ⟨named, numbered, htable, hentries⟩ := ha
  obtain ⟨named', numbered', htable', hentries'⟩ := hb
  obtain ⟨rfl, rfl, rfl⟩ := ResourceTable.stored_unique htable htable'
  exact congrArg (ResourceDirectory.mk _) (hentries.unique hentries')

end PeImage
