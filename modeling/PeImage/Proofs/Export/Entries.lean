import PeImage.ExportTable
import PeImage.Proofs.AddressSpace
import PeImage.Proofs.Result

/-!
# What reading the export table does

The slots that the names are put into hold, after all pairs of name and position, the first name
that is paired with their position and can be read. With that, a table is read exactly when its
addresses are, and each of its entries is a function of an address and its position.
-/

namespace PeImage

namespace ExportTable

/-- The first name paired with a position that can be read. -/
def pairedName (space : AddressSpace) (cap : Nat) (pairs : List (UInt32 × Nat))
    (position : Nat) : Option String :=
  pairs.findSome? fun pair => if pair.2 = position then space.text? pair.1 cap else none

/-- A pair fills the slot of its position if that is still empty, and no other. -/
theorem getElem?_assignName (space : AddressSpace) (cap : Nat) (slots : Array (Option String))
    (pair : UInt32 × Nat) (k : Nat) :
    (assignName space cap slots pair)[k]? = slots[k]?.map fun slot =>
      slot.or (if pair.2 = k then space.text? pair.1 cap else none) := by
  by_cases hk : pair.2 = k
  · subst hk
    rw [if_pos rfl]
    unfold assignName
    cases hslot : slots[pair.2]? with
    | none => simp [hslot]
    | some slot =>
      cases slot with
      | none =>
        have hinside := (Array.getElem?_eq_some_iff.mp hslot).1
        simp [hinside]
      | some name => simp [hslot]
  · rw [if_neg hk]
    have hframe : (assignName space cap slots pair)[k]? = slots[k]? := by
      unfold assignName
      split
      · rw [Array.getElem?_setIfInBounds_ne hk]
      · rfl
    simp [hframe]

/-- The slots after all pairs hold what they held before, or else the first readable name. -/
theorem getElem?_foldl_assignName (space : AddressSpace) (cap : Nat)
    (slots : Array (Option String)) (pairs : List (UInt32 × Nat)) (k : Nat) :
    (pairs.foldl (assignName space cap) slots)[k]? = slots[k]?.map fun slot =>
      slot.or (pairedName space cap pairs k) := by
  induction pairs generalizing slots with
  | nil => simp [pairedName]
  | cons pair rest ih =>
    rw [List.foldl_cons, ih, getElem?_assignName, Option.map_map]
    congr 1
    funext slot
    rw [Function.comp_apply, Option.or_assoc, pairedName, pairedName, List.findSome?_cons]
    cases (if pair.2 = k then space.text? pair.1 cap else none) <;> rfl

/-- The name of a position in range is the first readable one paired with it. -/
theorem names_getD (space : AddressSpace) (cap : Nat) (pairs : List (UInt32 × Nat))
    {count k : Nat} (hk : k < count) :
    (names space cap count pairs).getD k none = pairedName space cap pairs k := by
  have hslot := getElem?_foldl_assignName space cap (Array.replicate count none) pairs k
  rw [Array.getElem?_replicate, if_pos hk] at hslot
  rw [names, Array.getD_eq_getD_getElem?, hslot]
  rfl

/-- The table of a directory once its addresses are read. -/
def ofAddresses (window : DirectoryWindow) (space : AddressSpace) (limits : Limits)
    (words : List UInt32) : ExportTable :=
  let directory := ExportDirectory.read window.data
  let names := names space limits.stringLength words.length (namePairs space limits directory)
  { directory := directory
    name := space.text? directory.nameRva limits.stringLength
    entries := words.zipIdx.filterMap fun (rva, position) =>
      entry? window limits.stringLength directory.ordinalBase names rva position }

/-- A directory with room for the fixed part is read as the table of its addresses. -/
theorem read_eq (window : DirectoryWindow) (space : AddressSpace) (limits : Limits) :
    read window space limits =
      if window.data.size < ExportDirectory.byteSize then
        .error (.exportDirectoryShort window.data.size)
      else
        (addresses space limits (.read window.data)).map (ofAddresses window space limits) := by
  unfold read
  split
  · rfl
  · exact bind_eq_map _ (ofAddresses window space limits)

/-- A table is read when the fixed part fits into the directory and the addresses are read. -/
theorem read_eq_ok (window : DirectoryWindow) (space : AddressSpace) (limits : Limits)
    (table : ExportTable) :
    read window space limits = .ok table ↔
      ExportDirectory.byteSize ≤ window.data.size ∧
        ∃ words, addresses space limits (.read window.data) = .ok words ∧
          table = ofAddresses window space limits words := by
  unfold read
  split
  · rename_i hshort
    exact iff_of_false (fun h => nomatch h) fun h => Nat.not_lt.mpr h.1 hshort
  · rename_i hlong
    rw [and_iff_right (Nat.not_lt.mp hlong)]
    refine bind_eq_ok.trans (exists_congr fun words => and_congr_right fun _ => ?_)
    exact ⟨fun h => (Except.ok.inj h).symm, fun h => congrArg Except.ok h.symm⟩

end ExportTable

end PeImage
