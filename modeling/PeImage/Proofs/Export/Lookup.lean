import PeImage.Proofs.Export.Slots

/-!
# Looking up exports

A lookup goes through the entries from the first on, so what it finds is the entry at the smallest
position. Of an ordinal there is one entry at most: ordinals wrap around, but no two positions of an
array are as far apart as their range. Nothing of this depends on where the bytes of an address are
had from, as long as no more of them are given than were asked for.
-/

namespace PeImage

/-- In a list of rising keys the first value that passes a test is the one of the least key. -/
theorem find?_eq_some_iff_least {α : Type} {key : α → Nat} {values : List α}
    (hrises : values.Pairwise fun first second => key first < key second) {test : α → Bool}
    {value : α} :
    values.find? test = some value ↔
      (value ∈ values ∧ test value) ∧ ∀ other ∈ values, test other → key value ≤ key other := by
  induction values with
  | nil => exact iff_of_false nofun fun h => nomatch h.1.1
  | cons first rest ih =>
    obtain ⟨hfirst, hrest⟩ := List.pairwise_cons.mp hrises
    cases htest : test first with
    -- What passes first has the least key of all.
    | true =>
      rw [List.find?_cons_of_pos htest, Option.some.injEq]
      constructor
      · rintro rfl
        refine ⟨⟨List.mem_cons_self, htest⟩, fun other hother _ => ?_⟩
        obtain rfl | hother := List.mem_cons.mp hother
        · exact Nat.le_refl _
        · exact Nat.le_of_lt (hfirst other hother)
      · rintro ⟨⟨hvalue, _⟩, hleast⟩
        obtain rfl | hvalue := List.mem_cons.mp hvalue
        · rfl
        · exact absurd (hfirst value hvalue)
            (Nat.not_lt_of_le (hleast first List.mem_cons_self htest))
    | false =>
      have hfails : ¬ test first := Bool.eq_false_iff.mp htest
      rw [List.find?_cons_of_neg hfails, ih hrest, List.forall_mem_cons, List.mem_cons]
      constructor
      · rintro ⟨⟨hvalue, hpasses⟩, hleast⟩
        exact ⟨⟨.inr hvalue, hpasses⟩, fun h => absurd h hfails, hleast⟩
      · rintro ⟨⟨rfl | hvalue, hpasses⟩, -, hleast⟩
        · exact absurd hpasses hfails
        · exact ⟨⟨hvalue, hpasses⟩, hleast⟩

namespace ExportTable

/-- The lookups of a table agree with its entries and with the array of addresses it was read from:
the ordinals are distinct and lead back to their entries, and an ordinal without an entry stands for
a position that is not in use or was not read; a name leads to the entry at the smallest position
among those of that name; and the forwarders are the entries in the window. -/
structure Coherent (table : ExportTable) (window : DirectoryWindow) (words : List UInt32) :
    Prop where
  address : ∀ entry ∈ table.entries,
    words[table.position entry.ordinal]? = some entry.rva ∧ entry.rva ≠ 0
  ordinals : (table.entries.map (·.ordinal)).Nodup
  byOrdinal : ∀ entry ∈ table.entries, table.byOrdinal? entry.ordinal = some entry
  byOrdinal_none : ∀ ordinal, table.byOrdinal? ordinal = none ↔
    words[table.position ordinal]? = none ∨ words[table.position ordinal]? = some 0
  byName : ∀ name entry, table.byName? name = some entry ↔
    (entry ∈ table.entries ∧ entry.name = some name) ∧
      ∀ other ∈ table.entries, other.name = some name →
        table.position entry.ordinal ≤ table.position other.ordinal
  byName_none : ∀ name, table.byName? name = none ↔ ∀ entry ∈ table.entries, entry.name ≠ some name
  forwarders : table.forwarders = table.entries.filter fun entry =>
    window.rva.toNat ≤ entry.rva.toNat ∧ entry.rva.toNat < window.rva.toNat + window.data.size

/-- A position stands for one ordinal only. -/
theorem position_injective (table : ExportTable) : Function.Injective table.position := by
  intro first second h
  have hsame := UInt32.toNat_inj.mp h
  rw [← UInt32.sub_add_cancel first table.directory.ordinalBase, hsame, UInt32.sub_add_cancel]

namespace Lists

variable {table : ExportTable} {window : DirectoryWindow} {words : List UInt32}
  (h : table.Lists window words)

include h

/-- The ordinals of the entries are distinct. -/
theorem ordinals_nodup : (table.entries.map (·.ordinal)).Nodup := by
  refine List.pairwise_map.mpr (h.pairwise.imp fun hlt hsame => ?_)
  rw [hsame] at hlt
  exact Nat.lt_irrefl _ hlt

/-- The entry of an ordinal is found. -/
theorem byOrdinal?_eq {entry : ExportEntry} (hentry : entry ∈ table.entries) :
    table.byOrdinal? entry.ordinal = some entry := by
  refine (find?_eq_some_iff_least h.pairwise).mpr
    ⟨⟨hentry, decide_eq_true rfl⟩, fun other _ hsame => ?_⟩
  exact Nat.le_of_eq (congrArg table.position (of_decide_eq_true hsame).symm)

/-- No entry is found for an ordinal exactly when its position is not in use. -/
theorem byOrdinal?_eq_none (ordinal : UInt32) : table.byOrdinal? ordinal = none ↔
    words[table.position ordinal]? = none ∨ words[table.position ordinal]? = some 0 := by
  rw [byOrdinal?, List.find?_eq_none]
  constructor
  · intro hnone
    cases hword : words[table.position ordinal]? with
    | none => exact .inl rfl
    | some rva =>
      refine .inr (congrArg some (Decidable.not_not.mp fun hused => ?_))
      obtain ⟨entry, hentry, hposition⟩ := h.exists_entry hword hused
      exact hnone entry hentry (decide_eq_true (table.position_injective hposition))
  · intro hunused entry hentry hordinal
    obtain ⟨hword, hused⟩ := h.address hentry
    rw [of_decide_eq_true hordinal] at hword
    obtain hnone | hzero := hunused
    · exact nomatch hnone.symm.trans hword
    · exact hused (Option.some.inj (hzero.symm.trans hword)).symm

/-- The lookups of a table that lists an array agree with it. -/
theorem coherent : table.Coherent window words where
  address _ := h.address
  ordinals := h.ordinals_nodup
  byOrdinal _ := h.byOrdinal?_eq
  byOrdinal_none := h.byOrdinal?_eq_none
  byName name entry := by
    rw [byName?, find?_eq_some_iff_least h.pairwise]
    simp only [decide_eq_true_iff]
  byName_none name := by
    rw [byName?, List.find?_eq_none]
    simp only [decide_eq_true_iff]
  forwarders := by
    refine List.filter_congr fun entry hentry => ?_
    rw [Bool.eq_iff_iff, decide_eq_true_iff]
    exact h.forwarder entry hentry

end Lists

end ExportTable

namespace Checked

/-- A source gives no more bytes than it is asked for. -/
def Source.IsClipped (source : Source) : Prop :=
  ∀ rva length data, source.slice? rva length = .ok (some data) → data.size ≤ length

/-- No more numbers are read from a source than were asked for. -/
theorem Source.IsClipped.length_words?_le {source : Source} (h : source.IsClipped) {rva : UInt32}
    {width limit : Nat} {hwidth : 0 < width} {words : List Nat}
    (hwords : source.words? rva width hwidth limit = .ok (some words)) : words.length ≤ limit := by
  unfold Source.words? at hwords
  split at hwords
  · obtain rfl := Option.some.inj (Except.ok.inj hwords)
    exact Nat.zero_le _
  · obtain ⟨part, hpart, hwords⟩ := bind_eq_ok.mp hwords
    cases part with
    | none => cases hwords
    | some data =>
      obtain ⟨found, hfound, hwords⟩ := bind_eq_ok.mp hwords
      obtain rfl := Option.some.inj (Except.ok.inj hwords)
      have hdata := h rva _ data hpart
      have hlargest : data.size ≤ Limits.largest := Nat.le_trans hdata (Nat.min_le_right _ _)
      rw [numbers_eq width hwidth (Cursor.ofBytes data) hlargest (Nat.zero_le _) data.size
        (Nat.sub_le _ _)] at hfound
      obtain rfl := Except.ok.inj hfound
      rw [Bytes.length_wordsAt, Bytes.wordCount]
      have hcount : data.size / width ≤ limit :=
        Nat.div_le_of_le_mul (Nat.mul_comm limit width ▸ Nat.le_trans hdata (Nat.min_le_left _ _))
      exact Nat.le_trans (Nat.min_le_right _ _) hcount

/-- No more addresses are read from a source than a 32-bit word counts. -/
theorem length_exportAddresses_lt {source : Source} (h : source.IsClipped) {limits : Limits}
    {directory : ExportDirectory} {words : List UInt32}
    (hwords : exportAddresses source limits directory = .ok words) :
    words.length < UInt32.size := by
  obtain ⟨found, hfound, hwords⟩ := bind_eq_ok.mp hwords
  cases found with
  | none => exact nomatch hwords
  | some numbers =>
    obtain rfl := Except.ok.inj hwords
    have hlimit := h.length_words?_le hfound
    have hcount := directory.functionCount.toNat_lt
    rw [List.length_map]
    unfold UInt32.size
    omega

/-- A table that is read from any source lists the addresses that are read there. -/
theorem lists_of_exportTable {window : DirectoryWindow} (hsize : window.data.size ≤ Limits.largest)
    {source : Source} (hsource : source.IsClipped) {limits : Limits} {table : ExportTable}
    (h : exportTable window source limits = .ok table) :
    ∃ words, exportAddresses source limits table.directory = .ok words ∧
      table.Lists window words := by
  unfold exportTable at h
  split at h
  · exact nomatch h
  obtain ⟨⟨directory, behind⟩, _, h⟩ := bind_eq_ok.mp h
  unfold exportsOf at h
  obtain ⟨name, _, h⟩ := bind_eq_ok.mp h
  obtain ⟨words, hwords, h⟩ := bind_eq_ok.mp h
  obtain ⟨pairs, _, h⟩ := bind_eq_ok.mp h
  obtain ⟨names, _, h⟩ := bind_eq_ok.mp h
  obtain ⟨entries, hentries, h⟩ := bind_eq_ok.mp h
  obtain rfl := Except.ok.inj h
  have hcount := length_exportAddresses_lt hsource hwords
  rw [filterMapM_eq _ _ _ fun slot hslot => exportEntry?_eq window limits hsize _ _ _ (by
    have hposition := (List.mem_zipIdx hslot).2.1
    omega)] at hentries
  exact ⟨words, hwords, ExportTable.lists_of_entries (Except.ok.inj hentries).symm
    (Nat.le_of_lt hcount)⟩

/-- The bytes of an address space as a source. -/
def Source.ofSpace (space : AddressSpace) : Source :=
  ⟨fun rva length => .ok (space.slice? rva length), space.isWide⟩

/-- A source that realizes an address space gives no more bytes than it is asked for. -/
theorem Source.Realizes.isClipped {source : Source} {space : AddressSpace}
    (h : source.Realizes space) : source.IsClipped := by
  intro rva length data hdata
  rw [h.slice, Except.ok.injEq, AddressSpace.slice?, Option.map_eq_some_iff] at hdata
  obtain ⟨offset, _, rfl⟩ := hdata
  rw [Bytes.size_clip]
  exact Nat.min_le_left _ _

end Checked

namespace ExportTable

/-- Whatever window a table was read from, and whether the bytes of an address were had from an
address space or from any source that gives no more of them than it is asked for: the lookups of the
table agree with its entries and with the addresses that were read. -/
theorem lookups_coherent (window : DirectoryWindow) (limits : Limits) (table : ExportTable) :
    (∀ space, read window space limits = .ok table →
      ∃ words, addresses space limits table.directory = .ok words ∧
        table.Coherent window words) ∧
    ∀ source : Checked.Source, source.IsClipped → window.data.size ≤ Limits.largest →
      Checked.exportTable window source limits = .ok table →
        ∃ words, Checked.exportAddresses source limits table.directory = .ok words ∧
          table.Coherent window words := by
  constructor
  · intro space hread
    obtain ⟨words, hwords, hlists⟩ := lists_of_read hread
    exact ⟨words, hwords, hlists.coherent⟩
  · intro source hsource hsize hread
    obtain ⟨words, hwords, hlists⟩ := Checked.lists_of_exportTable hsize hsource hread
    exact ⟨words, hwords, hlists.coherent⟩

/-- The ordinal behind the last one is zero. It is that of the position that is not in use, and the
name leads to the first position although it was paired with the third one before. -/
theorem lookups_coherent_wrapping :
    ∃ table, read (wrapping.window 0x1000 40) wrapping Limits.standard = .ok table ∧
      Checked.exportTable (wrapping.window 0x1000 40) (.ofSpace wrapping) Limits.standard =
        .ok table ∧
      table.entries = [wrappingFirst, wrappingLast] ∧
      table.byOrdinal? 0xFFFFFFFF = some wrappingFirst ∧ table.byOrdinal? 0 = none ∧
      table.byOrdinal? 1 = some wrappingLast ∧ table.byName? "ab" = some wrappingFirst ∧
      table.forwarders = [wrappingLast] := by
  let directory := ExportDirectory.read (wrapping.window 0x1000 40).data
  let table : ExportTable := ⟨directory, some "ab", [wrappingFirst, wrappingLast]⟩
  have hread : read (wrapping.window 0x1000 40) wrapping Limits.standard = .ok table := by rfl
  have hrealizes : (Checked.Source.ofSpace wrapping).Realizes wrapping :=
    ⟨by decide, fun _ _ => rfl, rfl⟩
  have hsize : (wrapping.window 0x1000 40).data.size ≤ Limits.largest := by decide
  have hchecked : Checked.exportTable (wrapping.window 0x1000 40) (.ofSpace wrapping)
      Limits.standard = .ok table := by
    rw [hrealizes.exportTable_eq _ _ hsize, hread]
    rfl
  have hlookups := lookups_coherent (wrapping.window 0x1000 40) Limits.standard table
  obtain ⟨words, hwords, hcoherent⟩ := hlookups.1 wrapping hread
  obtain ⟨_, _, hsame⟩ := hlookups.2 _ hrealizes.isClipped hsize hchecked
  have hunused : words[table.position 0]? = some 0 := by
    have haddresses : addresses wrapping Limits.standard directory = .ok [0x5000, 0, 0x1027] := by
      decide +kernel
    obtain rfl := Except.ok.inj (hwords.symm.trans haddresses)
    rfl
  have hfirst : wrappingFirst ∈ table.entries := List.mem_cons_self
  have hlast : wrappingLast ∈ table.entries := List.mem_cons_of_mem _ List.mem_cons_self
  have hforwarders : table.forwarders = [wrappingLast] := by
    rw [hsame.forwarders]
    decide +kernel
  exact ⟨table, hread, hchecked, rfl, hcoherent.byOrdinal _ hfirst,
    (hcoherent.byOrdinal_none 0).mpr (.inr hunused), hcoherent.byOrdinal _ hlast,
    (hcoherent.byName "ab" _).mpr ⟨⟨hfirst, rfl⟩, by decide⟩, hforwarders⟩

end ExportTable

end PeImage
