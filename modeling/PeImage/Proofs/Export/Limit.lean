import Mathlib.Data.List.Forall2
import PeImage.Proofs.Export.Slots

/-!
# A limit only drops exports

The limit on exports cuts three arrays at once: the addresses, and the pairs of a name with its
position. With fewer addresses the first positions are left. With fewer pairs the first name that
can be read is the same one as before, if it is among the pairs that are left, and otherwise there is
none; so a position that is kept may lose its name and never gets another one.
-/

namespace PeImage

/-- The pairs of the first values are the first pairs. -/
theorem zip_take {α β : Type} (firsts : List α) (seconds : List β) (n : Nat) :
    (firsts.take n).zip (seconds.take n) = (firsts.zip seconds).take n := by
  rw [List.zip_eq_zipWith, List.zip_eq_zipWith, List.take_zipWith]

/-- Among the first values the same one is found or none. -/
theorem findSome?_take {α β : Type} (f : α → Option β) (values : List α) (n : Nat) :
    (values.take n).findSome? f = values.findSome? f ∨ (values.take n).findSome? f = none := by
  have hsplit : ((values.take n) ++ values.drop n).findSome? f = _ := List.findSome?_append
  rw [List.take_append_drop] at hsplit
  cases hfirst : (values.take n).findSome? f with
  | none => exact .inr rfl
  | some found =>
    rw [hfirst] at hsplit
    exact .inl hsplit.symm

/-- The limits with another one on exports. -/
def Limits.withExports (limits : Limits) (exports : Nat) : Limits := { limits with exports }

/-- An entry that is kept under a smaller limit: it is the same export, and its name may be missing. -/
structure ExportEntry.Kept (kept entry : ExportEntry) : Prop where
  ordinal : kept.ordinal = entry.ordinal
  rva : kept.rva = entry.rva
  forwarder : kept.forwarder = entry.forwarder
  name : kept.name = entry.name ∨ kept.name = none

namespace ExportTable

variable {space : AddressSpace} {limits : Limits} {directory : ExportDirectory} {k : Nat}

section Arrays

variable (space directory) (hk : k ≤ limits.exports)

include hk

/-- Under a smaller limit the first addresses are left. -/
theorem storedAddresses_withExports :
    storedAddresses space (limits.withExports k) directory =
      (storedAddresses space limits directory).take k := by
  have hcount : min directory.functionCount.toNat k =
      min k (min directory.functionCount.toNat limits.exports) := by omega
  rw [storedAddresses, storedAddresses, List.take_take, ← hcount]
  rfl

/-- Under a smaller limit the first pairs are left. -/
theorem storedPairs_withExports :
    storedPairs space (limits.withExports k) directory =
      (storedPairs space limits directory).take k := by
  have hcount : min directory.nameCount.toNat k =
      min k (min directory.nameCount.toNat limits.exports) := by omega
  unfold storedPairs Limits.withExports
  split
  · rw [zip_take, zip_take, List.take_take, ← hcount]
  · rw [List.take_nil]

/-- Under a smaller limit an entry is kept. -/
theorem storedEntry_withExports (window : DirectoryWindow) (rva : UInt32) (position : Nat) :
    (storedEntry window space (limits.withExports k) directory rva position).Kept
      (storedEntry window space limits directory rva position) where
  ordinal := rfl
  rva := rfl
  forwarder := rfl
  name := by
    rw [storedEntry, storedEntry, storedName, storedName, storedPairs_withExports space directory hk]
    exact findSome?_take _ _ _

end Arrays

/-- A smaller limit on exports only drops some. The table is read all the same, with the same
directory and name of the library. It has the entries at the positions below the limit, in order,
and each of them is the same except that its name may be missing. The position of an entry, which
its ordinal stands for, is where its address is in the array. -/
theorem read_withExports (window : DirectoryWindow) (space : AddressSpace) (limits : Limits)
    {k : Nat} (hk : k ≤ limits.exports) {whole : ExportTable}
    (h : read window space limits = .ok whole) :
    ∃ table, read window space (limits.withExports k) = .ok table ∧
      table.directory = whole.directory ∧ table.name = whole.name ∧
      List.Forall₂ ExportEntry.Kept table.entries
        (whole.entries.filter fun entry => whole.position entry.ordinal < k) ∧
      ∃ words, addresses space limits whole.directory = .ok words ∧
        ∀ entry ∈ whole.entries, words[whole.position entry.ordinal]? = some entry.rva := by
  obtain ⟨words, hwords, hlists⟩ := lists_of_read h
  obtain ⟨hsize, hresolves⟩ := (exists_read_eq_ok ..).mp ⟨whole, h⟩
  obtain rfl := eq_stored_of_read h
  -- With a limit of zero no address is read, so that it need not lead anywhere.
  have hfewer : min (ExportDirectory.ofOctets window.data.octets).functionCount.toNat k = 0 ∨
      (space.tail? (ExportDirectory.ofOctets window.data.octets).addressesRva).isSome :=
    hresolves.imp_left fun hnone => by omega
  obtain ⟨table, hread⟩ :=
    (exists_read_eq_ok window space (limits.withExports k)).mpr ⟨hsize, hfewer⟩
  obtain rfl := eq_stored_of_read hread
  refine ⟨_, hread, rfl, rfl, ?_, words, hwords, fun entry hentry => (hlists.address hentry).1⟩
  obtain rfl : words = storedAddresses space limits (.ofOctets window.data.octets) :=
    ((addresses_eq_ok ..).mp hwords).2
  rw [hlists.filter_entries (entries_stored window space limits), entries_stored,
    storedAddresses_withExports space _ hk]
  refine List.forall₂_map_left_iff.mpr (List.forall₂_map_right_iff.mpr
    (List.forall₂_same.mpr fun slot _ => ?_))
  exact storedEntry_withExports space _ hk window slot.1 slot.2

/-- With a limit of one the first of two exports is left, without the name that it has as the second
of two pairs. -/
theorem read_withExports_wrapping :
    1 ≤ Limits.standard.exports ∧ ∃ whole table,
      read (wrapping.window 0x1000 40) wrapping Limits.standard = .ok whole ∧
      read (wrapping.window 0x1000 40) wrapping (Limits.standard.withExports 1) = .ok table ∧
      whole.entries = [wrappingFirst, wrappingLast] ∧
      table.entries = [{ wrappingFirst with name := none }] ∧
      List.Forall₂ ExportEntry.Kept table.entries [wrappingFirst] := by
  let directory := ExportDirectory.read (wrapping.window 0x1000 40).data
  let whole : ExportTable := ⟨directory, some "ab", [wrappingFirst, wrappingLast]⟩
  let table : ExportTable := ⟨directory, some "ab", [{ wrappingFirst with name := none }]⟩
  have hwhole : read (wrapping.window 0x1000 40) wrapping Limits.standard = .ok whole := by rfl
  have htable : read (wrapping.window 0x1000 40) wrapping (Limits.standard.withExports 1) =
      .ok table := by rfl
  obtain ⟨found, hfound, _, _, hkept, _⟩ := read_withExports (wrapping.window 0x1000 40) wrapping
    Limits.standard (show 1 ≤ Limits.standard.exports by decide) hwhole
  obtain rfl := Except.ok.inj (htable.symm.trans hfound)
  have hbelow : (whole.entries.filter fun entry => whole.position entry.ordinal < 1) =
      [wrappingFirst] := by decide +kernel
  rw [hbelow] at hkept
  exact ⟨by decide, whole, table, hwhole, htable, rfl, rfl, hkept⟩

end ExportTable

end PeImage
