import PeImage.Proofs.Export.TextCap
import PeImage.Proofs.Import.TextCap

/-!
# The cap on strings affects text only

With two caps that let a byte be seen, both tables are read alike, up to how much of each text is
there. Where no string goes on behind the smaller cap, there is no difference at all.
-/

namespace PeImage

/-- The cap on strings affects text only, as long as it lets a byte be seen. Exports and imports are
read with one cap exactly when they are with another one, otherwise with the same fault, and the
tables are the same but for the contents of their texts: each name and each forwarder is there with
both caps or with none. If every string ends within both caps, at its NUL or where the file or the
window ends, the tables are the same. -/
theorem tables_withStringLength (window : DirectoryWindow) (space : AddressSpace) (limits : Limits)
    {n m : Nat} (hn : 0 < n) (hm : 0 < m) :
    ((ExportTable.read window space (limits.withStringLength n)).map ExportTable.withoutText =
        (ExportTable.read window space (limits.withStringLength m)).map ExportTable.withoutText ∧
      ((∀ octets ∈ ExportTable.strings window space limits, EndsWithin (min n m) octets) →
        ExportTable.read window space (limits.withStringLength n) =
          ExportTable.read window space (limits.withStringLength m))) ∧
    (ImportTable.read window space (limits.withStringLength n)).map ImportTable.withoutText =
        (ImportTable.read window space (limits.withStringLength m)).map ImportTable.withoutText ∧
      ((∀ octets ∈ ImportTable.strings window space limits, EndsWithin (min n m) octets) →
        ImportTable.read window space (limits.withStringLength n) =
          ImportTable.read window space (limits.withStringLength m)) := by
  refine ⟨⟨?_, fun hends => ?_⟩, ?_, fun hends => ?_⟩
  · exact ExportTable.map_mapText_read window space limits hn hm fun octets _ =>
      capsAgree_erased n m octets
  · have hread := ExportTable.map_mapText_read window space limits hn hm fun octets hoctets =>
      capsAgree_of_endsWithin (hends octets hoctets)
    rwa [ExportTable.map_mapText_id, ExportTable.map_mapText_id] at hread
  · exact ImportTable.map_mapText_read space limits hn hm window fun octets _ =>
      capsAgree_erased n m octets
  · have hread := ImportTable.map_mapText_read space limits hn hm window fun octets hoctets =>
      capsAgree_of_endsWithin (hends octets hoctets)
    rwa [ImportTable.map_mapText_id, ImportTable.map_mapText_id] at hread

/-- Names of two bytes are cut by a cap of one and read alike with caps of two and three. -/
theorem tables_withStringLength_samples :
    let exports (cap : Nat) := ExportTable.read (ExportTable.wrapping.window 0x1000 40)
      ExportTable.wrapping (Limits.standard.withStringLength cap)
    let imports (cap : Nat) := ImportTable.read (ImportTable.sample.window 0x1000 40)
      ImportTable.sample (Limits.standard.withStringLength cap)
    (exports 1).map (·.name) = .ok (some "a") ∧ (exports 2).map (·.name) = .ok (some "ab") ∧
      (exports 1).map ExportTable.withoutText = (exports 2).map ExportTable.withoutText ∧
      exports 2 = exports 3 ∧
      (imports 1).map (·.libraries.map (·.name)) = .ok ["a"] ∧
      (imports 2).map (·.libraries.map (·.name)) = .ok ["ab"] ∧
      (imports 1).map ImportTable.withoutText = (imports 2).map ImportTable.withoutText ∧
      imports 2 = imports 3 := by
  have hexports := fun (n m : Nat) (hn : 0 < n) (hm : 0 < m) =>
    (tables_withStringLength (ExportTable.wrapping.window 0x1000 40) ExportTable.wrapping
      Limits.standard hn hm).1
  have himports := fun (n m : Nat) (hn : 0 < n) (hm : 0 < m) =>
    (tables_withStringLength (ImportTable.sample.window 0x1000 40) ImportTable.sample
      Limits.standard hn hm).2
  refine ⟨rfl, rfl, (hexports 1 2 (by decide) (by decide)).1,
    (hexports 2 3 (by decide) (by decide)).2 (by decide +kernel), rfl, rfl,
    (himports 1 2 (by decide) (by decide)).1,
    (himports 2 3 (by decide) (by decide)).2 (by decide +kernel)⟩

end PeImage
