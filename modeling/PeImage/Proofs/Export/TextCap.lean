import PeImage.Proofs.Export.Slots
import PeImage.Proofs.Text.Cap

/-!
# The cap on strings and the export table

Each text of an export table is a terminated string at a place that the cap has no part in: the
name of the library and the names of exports stand at addresses that resolve, and a forwarder stands
at an address in the directory. So the cap decides how much of a text is read, and never whether
there is one. Which name of a position is the first that can be read does not depend on it either.
-/

namespace PeImage

/-- The bytes from an address to the end of the window, if the address lies in it. -/
def DirectoryWindow.tail? (window : DirectoryWindow) (rva : UInt32) : Option (List UInt8) :=
  (window.offset? rva).map window.data.octets.drop

/-- The export with its texts changed. -/
def ExportEntry.mapText (f : String → String) (entry : ExportEntry) : ExportEntry :=
  { entry with name := entry.name.map f, forwarder := entry.forwarder.map f }

namespace ExportTable

/-- The table with its texts changed. -/
def mapText (f : String → String) (table : ExportTable) : ExportTable :=
  { table with name := table.name.map f, entries := table.entries.map (·.mapText f) }

/-- The table in which of each text no more is left than that it is there. -/
def withoutText (table : ExportTable) : ExportTable := table.mapText fun _ => ""

/-- The table is itself if its texts are not changed. -/
@[simp] theorem mapText_id (table : ExportTable) : table.mapText id = table := by
  have hentry : ExportEntry.mapText id = id := by
    funext entry
    simp [ExportEntry.mapText]
  simp [mapText, hentry]

/-- What is read is the same if its texts are not changed. -/
theorem map_mapText_id (result : Except Fault ExportTable) : result.map (mapText id) = result := by
  cases result with
  | error fault => rfl
  | ok table => exact congrArg Except.ok table.mapText_id

/-- The bytes from the first name on that is paired with a position and whose address resolves. -/
def nameTail? (space : AddressSpace) (pairs : List (UInt32 × Nat)) (position : Nat) :
    Option (List UInt8) :=
  pairs.findSome? fun pair => if pair.2 = position then space.tail? pair.1 else none

/-- The strings of a table, each with all bytes behind it: the name of the library, and the name and
the forwarder of each position in use. -/
def strings (window : DirectoryWindow) (space : AddressSpace) (limits : Limits) :
    List (List UInt8) :=
  let directory := ExportDirectory.ofOctets window.data.octets
  (space.tail? directory.nameRva).toList ++
    (usedSlots (storedAddresses space limits directory)).flatMap fun slot =>
      (nameTail? space (storedPairs space limits directory) slot.2).toList ++
        (window.tail? slot.1).toList

variable {f : String → String} {cap n m : Nat}

/-- A forwarder is the string at its address in the window. -/
theorem storedForwarder_eq_map (window : DirectoryWindow) (cap : Nat) (rva : UInt32) :
    window.storedForwarder cap rva =
      (window.tail? rva).map fun octets => Utf8.decode (terminated cap octets) := by
  rw [← forwarder_eq_stored, DirectoryWindow.tail?, Option.map_map]
  congr 1
  funext offset
  rw [Bytes.textAt, Bytes.terminatedAt_eq, Function.comp_apply]

/-- With a cap that lets a byte be seen, a string is read wherever an address resolves. -/
theorem storedText?_eq_map (space : AddressSpace) (rva : UInt32) (hcap : 0 < cap) :
    space.storedText? rva cap =
      (space.tail? rva).map fun octets => Utf8.decode (terminated cap octets) := by
  rw [AddressSpace.storedText?, if_neg (Nat.ne_of_gt hcap)]

/-- Which name of a position is read does not depend on the cap. -/
theorem storedName_eq_map (space : AddressSpace) (pairs : List (UInt32 × Nat)) (position : Nat)
    (hcap : 0 < cap) :
    storedName space cap pairs position =
      (nameTail? space pairs position).map fun octets => Utf8.decode (terminated cap octets) := by
  rw [storedName, nameTail?, List.map_findSome?]
  congr 1
  funext pair
  rw [storedText?_eq_map space pair.1 hcap, Function.comp_apply]
  split
  · rfl
  · rfl

variable (window : DirectoryWindow) (space : AddressSpace) (limits : Limits)
  (hn : 0 < n) (hm : 0 < m)

include hn hm

/-- An export has the same texts with two caps, as far as these agree on its strings. -/
theorem mapText_storedEntry (directory : ExportDirectory) (rva : UInt32) (position : Nat)
    (hname : ∀ octets ∈ nameTail? space (storedPairs space limits directory) position,
      CapsAgree f n m octets)
    (hforwarder : ∀ octets ∈ window.tail? rva, CapsAgree f n m octets) :
    (storedEntry window space (limits.withStringLength n) directory rva position).mapText f =
      (storedEntry window space (limits.withStringLength m) directory rva position).mapText f := by
  have hnames := map_text_congr hname
  rw [← storedName_eq_map space _ position hn, ← storedName_eq_map space _ position hm] at hnames
  have hforwarders := map_text_congr hforwarder
  rw [← storedForwarder_eq_map, ← storedForwarder_eq_map] at hforwarders
  rw [ExportEntry.mapText, ExportEntry.mapText, ExportEntry.mk.injEq]
  exact ⟨rfl, rfl, hnames, hforwarders⟩

/-- A table has the same texts with two caps, as far as these agree on its strings. -/
theorem mapText_stored (h : ∀ octets ∈ strings window space limits, CapsAgree f n m octets) :
    (stored window space (limits.withStringLength n)).mapText f =
      (stored window space (limits.withStringLength m)).mapText f := by
  have hlibrary := map_text_congr fun octets hoctets =>
    h octets (List.mem_append_left _ (Option.mem_toList.mpr hoctets))
  rw [← storedText?_eq_map space _ hn, ← storedText?_eq_map space _ hm] at hlibrary
  rw [mapText, mapText, mk.injEq, entries_stored, entries_stored, List.map_map, List.map_map]
  refine ⟨rfl, hlibrary, List.map_congr_left fun slot hslot => ?_⟩
  have hstring (octets : List UInt8) (hoctets : octets ∈
      (nameTail? space (storedPairs space limits (.ofOctets window.data.octets))
        slot.2).toList ++ (window.tail? slot.1).toList) : CapsAgree f n m octets :=
    h octets (List.mem_append_right _ (List.mem_flatMap.mpr ⟨slot, hslot, hoctets⟩))
  refine mapText_storedEntry window space limits hn hm _ slot.1 slot.2
    (fun octets hoctets => hstring octets ?_) fun octets hoctets => hstring octets ?_
  · exact List.mem_append_left _ (Option.mem_toList.mpr hoctets)
  · exact List.mem_append_right _ (Option.mem_toList.mpr hoctets)

/-- A directory is read alike with two caps, with the same fault or with the same texts as far as
the caps agree on the strings. -/
theorem map_mapText_read (h : ∀ octets ∈ strings window space limits, CapsAgree f n m octets) :
    (read window space (limits.withStringLength n)).map (mapText f) =
      (read window space (limits.withStringLength m)).map (mapText f) := by
  rw [read_eq, read_eq, ExportDirectory.read_eq_ofOctets]
  split
  · rfl
  · -- Addresses are read without a string, so that their fault is the same with any cap.
    have haddresses (cap : Nat) : addresses space (limits.withStringLength cap)
        (.ofOctets window.data.octets) =
          addresses space limits (.ofOctets window.data.octets) := rfl
    rw [haddresses, haddresses]
    cases hwords : addresses space limits (.ofOctets window.data.octets) with
    | error fault => rfl
    | ok words =>
      have hstored (cap : Nat) : words =
          storedAddresses space (limits.withStringLength cap) (.ofOctets window.data.octets) :=
        ((addresses_eq_ok ..).mp hwords).2
      have htables : (ofAddresses window space (limits.withStringLength n) words).mapText f =
          (ofAddresses window space (limits.withStringLength m) words).mapText f := by
        calc
          _ = (stored window space (limits.withStringLength n)).mapText f := by
            rw [hstored n, ofAddresses_stored]
          _ = (stored window space (limits.withStringLength m)).mapText f :=
            mapText_stored window space limits hn hm h
          _ = _ := by rw [hstored m, ofAddresses_stored]
      exact congrArg Except.ok htables

end ExportTable

end PeImage
