import PeImage.AddressSpace
import PeImage.Proofs.Bytes.Words

/-!
# What follows an address

Every read at an address is a function of the bytes from that address to the end of the file,
`tail?`. An address resolves when there are any, and what is read then is a terminated string, or
whole numbers one behind the other, at the start of them.
-/

namespace PeImage

/-- The number of a whole record is below the range of its width. -/
theorem toNat_lt_of_mem_records {size : Nat} {octets record : List UInt8}
    (h : record ∈ records size octets) : LittleEndian.toNat record < LittleEndian.range size := by
  have hlt := LittleEndian.toNat_lt record
  rwa [length_of_mem_records h] at hlt

namespace AddressSpace

/-- The bytes from an address to the end of the file, if the address resolves. -/
def tail? (space : AddressSpace) (rva : UInt32) : Option (List UInt8) :=
  (space.offset? rva).map space.bytes.octets.drop

/-- The terminated string at the start of what follows an address, provided that the cap lets a byte
of it be seen. -/
def storedText? (space : AddressSpace) (rva : UInt32) (cap : Nat) : Option String :=
  if cap = 0 then none
  else (space.tail? rva).map fun tail => Utf8.decode (terminated cap tail)

/-- The whole numbers of `width` bytes from an address to the end of the file. -/
def storedWords? (space : AddressSpace) (rva : UInt32) (width : Nat) : Option (List Nat) :=
  (space.tail? rva).map fun tail => (records width tail).map LittleEndian.toNat

/-- The string that is read at an address is the stored one. -/
theorem text?_eq_stored (space : AddressSpace) (rva : UInt32) (cap : Nat) :
    space.text? rva cap = space.storedText? rva cap := by
  rw [text?, storedText?, tail?, Option.map_map]
  congr 2
  funext offset
  rw [Bytes.textAt, Bytes.terminatedAt_eq, Function.comp_apply]

/-- A string that is expected at an address is there exactly when the address resolves and the cap
lets a byte be seen. -/
theorem text_eq_ok (space : AddressSpace) (rva : UInt32) (cap : Nat) (text : String) :
    space.text rva cap = .ok text ↔
      0 < cap ∧ ∃ tail, space.tail? rva = some tail ∧ text = Utf8.decode (terminated cap tail) := by
  rw [AddressSpace.text, text?_eq_stored, storedText?]
  by_cases hcap : cap = 0
  · simp [hcap]
  · have hpos : 0 < cap := Nat.pos_of_ne_zero hcap
    cases htail : space.tail? rva with
    | none => simp [hcap]
    | some tail => simp [hcap, hpos, eq_comm]

/-- The words that are read at an address are the stored ones, cut to the limit. -/
theorem words?_eq_stored (space : AddressSpace) (rva : UInt32) (width limit : Nat) :
    space.words? rva width limit = (space.storedWords? rva width).map (·.take limit) := by
  rw [words?, storedWords?, tail?, Option.map_map, Option.map_map]
  congr 1
  funext offset
  rw [Bytes.wordsAt_eq_records, Function.comp_apply, Function.comp_apply]

/-- Stored words are below the range of their width. -/
theorem lt_range_of_mem_storedWords? {space : AddressSpace} {rva : UInt32} {width word : Nat}
    {words : List Nat} (hwords : space.storedWords? rva width = some words) (h : word ∈ words) :
    word < LittleEndian.range width := by
  obtain ⟨tail, _, rfl⟩ := Option.map_eq_some_iff.mp hwords
  obtain ⟨record, hrecord, rfl⟩ := List.mem_map.mp h
  exact toNat_lt_of_mem_records hrecord

/-- No more words are stored at an address than fit into the file. -/
theorem length_storedWords?_le {space : AddressSpace} {rva : UInt32} {width : Nat}
    {words : List Nat} (hwords : space.storedWords? rva width = some words) :
    words.length ≤ space.bytes.size / width := by
  obtain ⟨tail, htail, rfl⟩ := Option.map_eq_some_iff.mp hwords
  obtain ⟨offset, _, rfl⟩ := Option.map_eq_some_iff.mp htail
  rw [List.length_map, length_records, List.length_drop, Bytes.length_octets]
  exact Nat.div_le_div_right (Nat.sub_le _ _)

end AddressSpace

end PeImage
