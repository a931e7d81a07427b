import Mathlib.Data.List.Pairwise
import PeImage.Proofs.Checked.Export
import PeImage.Proofs.Export.Reference

/-!
# The positions of exports

An export stands at a position of the array of addresses that is in use, and its ordinal is as far
from the base as the position is from the start of the array. Ordinals wrap around, but an array is
never longer than their range, so the position is got back from the ordinal. The entries of a table
are thus a list of positions in rising order.
-/

namespace PeImage

/-- An address has a place in a window exactly when it lies between its ends. -/
theorem DirectoryWindow.isSome_offset? (window : DirectoryWindow) (rva : UInt32) :
    (window.offset? rva).isSome ↔
      window.rva.toNat ≤ rva.toNat ∧ rva.toNat < window.rva.toNat + window.data.size := by
  rw [offset?]
  split
  · rename_i hinside
    rw [UInt32.le_iff_toNat_le] at hinside
    exact iff_of_true rfl (by omega)
  · rename_i houtside
    rw [UInt32.le_iff_toNat_le] at houtside
    exact iff_of_false nofun (by omega)

namespace ExportTable

/-- The positions of an array that are in use, each behind the address that stands there. -/
def usedSlots (words : List UInt32) : List (UInt32 × Nat) := words.zipIdx.filter (·.1 ≠ 0)

/-- A position is in use where an address stands that is not zero. -/
theorem mem_usedSlots {words : List UInt32} {slot : UInt32 × Nat} :
    slot ∈ usedSlots words ↔ words[slot.2]? = some slot.1 ∧ slot.1 ≠ 0 := by
  rw [usedSlots, List.mem_filter, List.mem_zipIdx_iff_getElem?, decide_eq_true_iff]

/-- The positions rise. -/
theorem usedSlots_pairwise (words : List UInt32) :
    (usedSlots words).Pairwise fun first second => first.2 < second.2 := by
  have hpositions : (words.zipIdx.map Prod.snd).Pairwise (· < ·) := by
    rw [List.zipIdx_map_snd]
    exact List.pairwise_lt_range'
  exact (List.pairwise_map.mp hpositions).filter _

/-- The positions of the first addresses are the first positions. -/
theorem filter_usedSlots (words : List UInt32) (k : Nat) :
    (usedSlots words).filter (·.2 < k) = usedSlots (words.take k) := by
  have hfirst : words.zipIdx.filter (·.2 < k) = (words.take k).zipIdx := by
    -- The positions of the addresses behind the first `k` are counted on from there.
    have hsplit : (words.take k ++ words.drop k).zipIdx = _ := List.zipIdx_append
    rw [List.take_append_drop] at hsplit
    have hkept : (words.take k).zipIdx.filter (·.2 < k) = (words.take k).zipIdx := by
      refine List.filter_eq_self.mpr fun slot hslot => decide_eq_true ?_
      have hlt := List.snd_lt_of_mem_zipIdx hslot
      rw [List.length_take] at hlt
      omega
    have hdropped : ((words.drop k).zipIdx (0 + (words.take k).length)).filter (·.2 < k) = [] := by
      refine List.filter_eq_nil_iff.mpr fun slot hslot => mt of_decide_eq_true ?_
      have hle := List.le_snd_of_mem_zipIdx hslot
      have hlt := List.snd_lt_of_mem_zipIdx hslot
      rw [List.length_take] at hle hlt
      rw [List.length_drop] at hlt
      omega
    rw [hsplit, List.filter_append, hkept, hdropped, List.append_nil]
  rw [usedSlots, List.filter_comm, hfirst, usedSlots]

/-- Entries that are made for the addresses that are not zero are made for the positions in use. -/
theorem filterMap_zipIdx (entry : UInt32 → Nat → ExportEntry) (words : List UInt32) :
    (words.zipIdx.filterMap fun (rva, position) =>
        if rva = 0 then none else some (entry rva position)) =
      (usedSlots words).map fun slot => entry slot.1 slot.2 := by
  rw [usedSlots, ← List.filterMap_eq_map, List.filterMap_filter]
  refine List.filterMap_congr fun slot _ => ?_
  by_cases hzero : slot.1 = 0 <;> simp [hzero]

/-- The entries of the stored table are those of the positions in use. -/
theorem entries_stored (window : DirectoryWindow) (space : AddressSpace) (limits : Limits) :
    (stored window space limits).entries =
      (usedSlots (storedAddresses space limits (.ofOctets window.data.octets))).map fun slot =>
        storedEntry window space limits (.ofOctets window.data.octets) slot.1 slot.2 := by
  unfold stored
  dsimp only
  rw [← filterMap_zipIdx]

/-- The position in the array of addresses that an ordinal stands for. -/
def position (table : ExportTable) (ordinal : UInt32) : Nat :=
  (ordinal - table.directory.ordinalBase).toNat

/-- The ordinal of a position stands for that position, also where it has wrapped around. -/
theorem toNat_add_sub (base : UInt32) {k : Nat} (hk : k < UInt32.size) :
    (base + UInt32.ofNat k - base).toNat = k := by
  rw [UInt32.add_comm, UInt32.add_sub_cancel, UInt32.toNat_ofNat_of_lt' hk]

/-- A table lists an array of addresses, as it is seen through a window: its entries are the
positions in use with their addresses, and those in the window are forwarders. -/
structure Lists (table : ExportTable) (window : DirectoryWindow) (words : List UInt32) : Prop where
  slots : table.entries.map (fun entry => (entry.rva, table.position entry.ordinal)) =
    usedSlots words
  forwarder : ∀ entry ∈ table.entries, entry.forwarder.isSome ↔
    window.rva.toNat ≤ entry.rva.toNat ∧ entry.rva.toNat < window.rva.toNat + window.data.size

/-- The entries that are read from an array list it, whatever their names are. -/
theorem lists_of_entries {table : ExportTable} {window : DirectoryWindow} {words : List UInt32}
    {cap : Nat} {names : Array (Option String)}
    (hentries : table.entries = words.zipIdx.filterMap fun (rva, position) =>
      entry? window cap table.directory.ordinalBase names rva position)
    (hcount : words.length ≤ UInt32.size) : table.Lists window words := by
  let entry (rva : UInt32) (position : Nat) : ExportEntry := {
    ordinal := table.directory.ordinalBase + UInt32.ofNat position
    rva := rva
    name := names.getD position none
    forwarder := (window.offset? rva).map (window.data.textAt · cap) }
  have hmade : table.entries = (usedSlots words).map fun slot => entry slot.1 slot.2 :=
    hentries.trans (filterMap_zipIdx entry words)
  constructor
  · rw [hmade, List.map_map]
    refine (List.map_congr_left fun slot hslot => ?_).trans (List.map_id _)
    have hinside := (List.getElem?_eq_some_iff.mp (mem_usedSlots.mp hslot).1).1
    rw [Function.comp_apply, position, toNat_add_sub _ (by omega)]
    rfl
  · rw [hmade]
    intro made hmem
    obtain ⟨slot, _, rfl⟩ := List.mem_map.mp hmem
    rw [Option.isSome_map, DirectoryWindow.isSome_offset?]

namespace Lists

variable {table : ExportTable} {window : DirectoryWindow} {words : List UInt32}
  (h : table.Lists window words)

include h

/-- An entry has the address that stands at its position. -/
theorem address {entry : ExportEntry} (hentry : entry ∈ table.entries) :
    words[table.position entry.ordinal]? = some entry.rva ∧ entry.rva ≠ 0 :=
  mem_usedSlots.mp (h.slots ▸ List.mem_map_of_mem hentry)

/-- A position in use has an entry. -/
theorem exists_entry {rva : UInt32} {k : Nat} (hword : words[k]? = some rva) (hused : rva ≠ 0) :
    ∃ entry ∈ table.entries, table.position entry.ordinal = k := by
  have hslot : (rva, k) ∈ usedSlots words := mem_usedSlots.mpr ⟨hword, hused⟩
  rw [← h.slots] at hslot
  obtain ⟨entry, hentry, hsame⟩ := List.mem_map.mp hslot
  exact ⟨entry, hentry, congrArg Prod.snd hsame⟩

/-- The positions of the entries rise. -/
theorem pairwise : table.entries.Pairwise fun first second =>
    table.position first.ordinal < table.position second.ordinal := by
  have hslots := usedSlots_pairwise words
  rwa [← h.slots, List.pairwise_map] at hslots

/-- The entries at the first positions are those of the first addresses. -/
theorem filter_entries {entry : UInt32 × Nat → ExportEntry}
    (hentries : table.entries = (usedSlots words).map entry) (k : Nat) :
    (table.entries.filter fun entry => table.position entry.ordinal < k) =
      (usedSlots (words.take k)).map entry := by
  have hslots := h.slots
  rw [hentries, List.map_map] at hslots
  have hplaces := List.map_inj_left.mp (hslots.trans (List.map_id _).symm)
  have hfirst : (usedSlots words).filter (fun slot => table.position (entry slot).ordinal < k) =
      (usedSlots words).filter (·.2 < k) := by
    refine List.filter_congr fun slot hslot => ?_
    have hplace : table.position (entry slot).ordinal = slot.2 :=
      congrArg Prod.snd (hplaces slot hslot)
    rw [hplace]
  rw [hentries, List.filter_map, ← filter_usedSlots, ← hfirst]
  rfl

end Lists

/-- A table that is read from an address space lists the addresses that are read there. -/
theorem lists_of_read {window : DirectoryWindow} {space : AddressSpace} {limits : Limits}
    {table : ExportTable} (h : read window space limits = .ok table) :
    ∃ words, addresses space limits table.directory = .ok words ∧ table.Lists window words := by
  obtain ⟨_, words, hwords, rfl⟩ := (read_eq_ok ..).mp h
  exact ⟨words, hwords, lists_of_entries rfl (Nat.le_of_lt (Checked.length_addresses_lt hwords))⟩

end ExportTable

end PeImage
