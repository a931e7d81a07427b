import PeImage.Proofs.Checked.Word
import PeImage.Proofs.Header.ReservedDirectory

/-!
# Loading with checked steps

An engine that loads an image leaves the layout of the headers to a decoder. Its own steps are to
set the length of the directory array right, to collect the directories that are in use, to find the
section table and to number the rows. They compute in words, and none of them can fail: the fields
that they add up have 32 bits or less.

The decoder has one trap of its own. It hands out the entries of the directory array with their
kinds, it knows fifteen kinds, and it takes a sixteenth entry to be impossible. So loading meets a
trap exactly on the files that use the reserved directory. On every other file it ends as the exact
loading does, with an image or with a fault.
-/

namespace PeImage.Checked

/-- The offset of the length of the directory array. -/
def countPlace? (file : Bytes) : Option Nat := do
  let place ← file.u32? 0x3C
  let optional ← add? place.toNat 24
  let magic ← file.u16? optional
  add? optional (OptionalHeader.directoryCountOffset (magic = OptionalHeader.magicWide))

/-- A copy with the bytes from `start` to `stop` replaced by a patch, which has to have as many, if
all of them lie inside. -/
def patched? (file : Bytes) (start stop : Nat) (patch : List UInt8) : Checked (Option Bytes) :=
  if start ≤ stop ∧ stop ≤ file.size then
    if patch.length = stop - start then .ok (some (file.overwrite start patch)) else trap .outside
  else .ok none

/-- A copy of a file with a directory array of sixteen entries, if the file declares more. -/
def clampDirectoryCount? (file : Bytes) : Checked (Option Bytes) :=
  match countPlace? file with
  | none => .ok none
  | some place =>
    match file.u32? place with
    | none => .ok none
    | some count =>
      if count.toNat ≤ directoryLimit then .ok none
      else do patched? file place (← add place 4) (LittleEndian.ofNat 4 directoryLimit)

/-- The kind of the entry at a place of the directory array. The decoder has fifteen kinds. -/
def directoryKind (index : Nat) : Checked Nat :=
  if index < 15 then .ok index else trap .unreachable

/-- The map with an entry of some kind, if there is such a table and the entry is in use. -/
def declare (map : DirectoryMap) (kind : Nat) (range : DirectoryRange) : DirectoryMap :=
  match DirectoryKey.ofIndex? kind with
  | none => map
  | some key => if range.address = 0 ∧ range.size = 0 then map else map.insert key range

/-- The map with the entries of the directory array from a place on. -/
def collect : (map : DirectoryMap) → (index : Nat) → List (Option DirectoryRange) →
    Checked DirectoryMap
  | map, _, [] => .ok map
  | map, index, none :: entries => collect map (index + 1) entries
  | map, index, some range :: entries => do
    let kind ← directoryKind index
    collect (declare map kind range) (index + 1) entries

/-- The optional header behind a file header. -/
def readOptional (file : Bytes) (place : Nat) (header : StoredFileHeader) :
    Checked OptionalHeader :=
  if header.optionalSize = 0 then refuse .noOptionalHeader
  else do
    let decoded ← ofResult (ofHeader (OptionalHeader.read file (place + 24)))
    let directories ← collect .empty 0 decoded.directories.slots.toList
    return { decoded with directories }

/-- The rows of a section table, numbered on from a position. -/
def numberRows : (index : Nat) → List SectionHeader → Checked (List SectionHeader)
  | _, [] => .ok []
  | index, header :: headers => do
    let number ← add index 1
    let rest ← numberRows (index + 1) headers
    return { header with number } :: rest

/-- The section table behind an optional header of the announced size. The engine refuses an image
for which the offset is no word; here that is a trap, so that it is seen not to happen. -/
def readSections (file : Bytes) (place : Nat) (header : StoredFileHeader) :
    Checked SectionTable := do
  let start ← add place 24
  let offset ← add start header.optionalSize.toNat
  let decoded ←
    ofResult (ofHeader (SectionTable.read file header.longNames offset header.sectionCount))
  return ⟨← numberRows 0 decoded.headers⟩

/-- The headers of a file whose directory array has a length in range. -/
def readHeaders (file : Bytes) : Checked Headers := do
  let place ← ofResult (ofHeader (DosHeader.imageHeaderPlace file))
  ofResult (ofHeader (RichHeader.check file place.toNat))
  let header ← ofResult (ofHeader (StoredFileHeader.read file (place.toNat + 4)))
  let optional ← readOptional file place.toNat header
  let sections ← readSections file place.toNat header
  return ⟨header.toFileHeader, optional, sections⟩

/-- The image in the contents of a file. -/
def load (contents : Option Bytes) : Checked Image := do
  let file ← ofResult (openContents contents)
  let copy? ← clampDirectoryCount? file
  let headers ← readHeaders (copy?.getD file)
  return ⟨file, headers.fileHeader, headers.optional, headers.sections⟩

/-- What exact loading ends with, but a trap for the use of the reserved directory. -/
def trapReserved {α : Type} : Except Fault α → Checked α
  | .error .reservedDirectory => trap .unreachable
  | result => ofResult result

/-- The length of the directory array is found without leaving the range of words. -/
theorem countPlace?_eq (file : Bytes) :
    countPlace? file = OptionalHeader.directoryCountPlace? file ∧
      ∀ place ∈ countPlace? file, place + 4 ≤ Limits.largest := by
  unfold countPlace? OptionalHeader.directoryCountPlace?
  cases file.u32? 0x3C with
  | none => exact ⟨rfl, fun _ h => nomatch h⟩
  | some pointer =>
    have hpointer := pointer.toNat_lt
    have hoptional : add? pointer.toNat 24 = some (pointer.toNat + 24) :=
      if_pos (by unfold Limits.largest; omega)
    simp only [Option.bind_eq_bind, Option.bind_some, hoptional]
    cases file.u16? (pointer.toNat + 24) with
    | none => exact ⟨rfl, fun _ h => nomatch h⟩
    | some magic =>
      have hfield :
          OptionalHeader.directoryCountOffset (magic = OptionalHeader.magicWide) ≤ 108 := by
        unfold OptionalHeader.directoryCountOffset
        split <;> omega
      have hplace : add? (pointer.toNat + 24)
          (OptionalHeader.directoryCountOffset (magic = OptionalHeader.magicWide)) = some _ :=
        if_pos (by unfold Limits.largest; omega)
      rw [Option.bind_some, Option.bind_some, hplace]
      refine ⟨rfl, fun place h => ?_⟩
      obtain rfl := Option.some.inj h
      unfold Limits.largest
      omega

/-- Setting the length of the directory array right meets no trap. -/
theorem clampDirectoryCount?_eq (file : Bytes) :
    clampDirectoryCount? file = .ok (OptionalHeader.clampDirectoryCount? file) := by
  obtain ⟨hplace, hfits⟩ := countPlace?_eq file
  unfold clampDirectoryCount? OptionalHeader.clampDirectoryCount?
  rw [← hplace]
  cases hfield : countPlace? file with
  | none => rfl
  | some place =>
    rw [Option.bind_eq_bind, Option.bind_some]
    dsimp only
    cases hcount : file.u32? place with
    | none => rfl
    | some count =>
      have hinside : place + 4 ≤ file.size := (Option.ite_none_right_eq_some.mp hcount).1
      rw [Option.bind_eq_bind, Option.bind_some]
      dsimp only
      by_cases hrange : count.toNat ≤ directoryLimit
      · rw [if_pos hrange, if_neg (Nat.not_lt.mpr hrange)]
      · have hpatch : (LittleEndian.ofNat 4 directoryLimit).length = place + 4 - place := by
          rw [LittleEndian.length_ofNat, Nat.add_sub_cancel_left]
        rw [if_neg hrange, if_pos (Nat.lt_of_not_le hrange), add_eq (hfits place hfield), ok_bind,
          patched?, if_pos ⟨Nat.le_add_right place 4, hinside⟩, if_pos hpatch]

section Collect

variable {target map : DirectoryMap} {index : Nat} {entries : List (Option DirectoryRange)}

/-- The entries from a place on complete a map that has those in front of it. -/
theorem collect_eq (hentries : target.slots.toList.drop index = entries)
    (hmap : ∀ key, map.get? key = if key.index < index then target.get? key else none)
    (hused : ∀ key range, target.get? key = some range → ¬ (range.address = 0 ∧ range.size = 0))
    (hreserved : target.get? .reserved = none) :
    collect map index entries = .ok target := by
  induction entries generalizing map index with
  | nil =>
    have hend : 16 ≤ index := by simpa using hentries
    have hall : map = target := DirectoryMap.ext_get? fun key => by
      rw [hmap, if_pos (by omega)]
    rw [collect, hall]
  | cons entry entries ih =>
    have hindex : index < 16 := Nat.lt_of_not_le fun hend => by
      rw [List.drop_of_length_le (by simpa using hend)] at hentries
      exact nomatch hentries
    obtain ⟨key, rfl⟩ := DirectoryKey.exists_index hindex
    obtain ⟨hentry, hrest⟩ := List.cons.inj ((target.drop_slots key).symm.trans hentries)
    -- The map to come has the entries in front of the next place: this one, and those before.
    have hstep (other : DirectoryKey) :
        (if (other.index : Nat) < key.index + 1 then target.get? other else none) =
          if key = other then entry else map.get? other := by
      by_cases hother : key = other
      · subst hother
        rw [if_pos (Nat.lt_succ_self _), if_pos rfl, hentry]
      · have hplace : (other.index : Nat) ≠ key.index := fun h =>
          hother (DirectoryKey.index_injective (Fin.ext h.symm))
        rw [if_neg hother, hmap]
        exact if_congr (by omega) rfl rfl
    cases entry with
    | none =>
      refine ih hrest fun other => ?_
      rw [hstep]
      split
      · rename_i hother
        rw [← hother, hmap, if_neg (Nat.lt_irrefl _)]
      · rfl
    | some range =>
      have hkey : key ≠ .reserved := fun hlast => by
        rw [← hlast, hentry] at hreserved
        exact nomatch hreserved
      have hkind : directoryKind key.index = .ok key.index :=
        if_pos (DirectoryKey.index_lt_of_ne_reserved hkey)
      have hdeclare : declare map key.index range = map.insert key range := by
        rw [declare, DirectoryKey.ofIndex?_index]
        exact if_neg (hused key range hentry)
      rw [collect, hkind, ok_bind, hdeclare]
      refine ih hrest fun other => ?_
      rw [hstep, DirectoryMap.get?_insert]

/-- The entries from a place on meet a trap if the last one is in use. -/
theorem collect_eq_trap (hentries : target.slots.toList.drop index = entries) (hindex : index < 16)
    (hreserved : (target.get? .reserved).isSome) :
    collect map index entries = trap .unreachable := by
  induction entries generalizing map index with
  | nil =>
    have hend : 16 ≤ index := by simpa using hentries
    omega
  | cons entry entries ih =>
    obtain ⟨key, rfl⟩ := DirectoryKey.exists_index hindex
    obtain ⟨hentry, hrest⟩ := List.cons.inj ((target.drop_slots key).symm.trans hentries)
    by_cases hlast : key = .reserved
    · subst hlast
      rw [hentry] at hreserved
      obtain ⟨range, rfl⟩ := Option.isSome_iff_exists.mp hreserved
      rfl
    · have hfront := DirectoryKey.index_lt_of_ne_reserved hlast
      have hnext : (key.index : Nat) + 1 < 16 := Nat.succ_lt_succ hfront
      cases entry with
      | none => exact ih hrest hnext
      | some range =>
        have hkind : directoryKind key.index = .ok key.index := if_pos hfront
        rw [collect, hkind, ok_bind]
        exact ih hrest hnext

end Collect

/-- Rows that are numbered in turn keep their numbers. -/
theorem numberRows_eq {index : Nat} {headers : List SectionHeader}
    (hnumbers : ∀ i header, headers[i]? = some header → header.number = index + i + 1)
    (hfits : index + headers.length ≤ Limits.largest) : numberRows index headers = .ok headers := by
  induction headers generalizing index with
  | nil => rfl
  | cons header headers ih =>
    rw [List.length_cons] at hfits
    have hnumber : header.number = index + 1 := hnumbers 0 header rfl
    have hrest : numberRows (index + 1) headers = .ok headers := by
      refine ih (fun i other hother => ?_) (by omega)
      rw [hnumbers (i + 1) other hother]
      omega
    rw [numberRows, add_eq (by omega), ok_bind, hrest, ok_bind, ← hnumber]
    rfl

section Headers

variable (file : Bytes) (place : Nat) (header : StoredFileHeader)

/-- The optional header is the exact one, or a trap where it uses the reserved directory. -/
theorem readOptional_eq :
    readOptional file place header = trapReserved (Headers.readOptional file place header) := by
  have hoffset : place + 4 + StoredFileHeader.byteSize = place + 24 := rfl
  unfold readOptional Headers.readOptional
  dsimp only
  rw [hoffset]
  split
  · rfl
  · cases hdecoded : OptionalHeader.read file (place + 24) with
    | error fault => rfl
    | ok decoded =>
      change (collect .empty 0 decoded.directories.slots.toList >>= fun directories =>
        .ok { decoded with directories }) = trapReserved
          (if (decoded.directory? .reserved).isSome then .error .reservedDirectory else .ok decoded)
      by_cases hreserved : (decoded.directory? .reserved).isSome
      · rw [if_pos hreserved, collect_eq_trap List.drop_zero (by decide) hreserved]
        rfl
      · have hused := OptionalHeader.inUse_of_read hdecoded
        rw [if_neg hreserved, collect_eq List.drop_zero DirectoryMap.get?_empty hused
          (Option.not_isSome_iff_eq_none.mp hreserved)]
        rfl

/-- The section table is the exact one. -/
theorem readSections_eq (hplace : place < UInt32.size) :
    readSections file place header = ofResult (Headers.readSections file place header) := by
  have hsize := header.optionalSize.toNat_lt
  have hcount := header.sectionCount.toNat_lt
  have hfits : place + 24 + header.optionalSize.toNat ≤ Limits.largest := by
    unfold Limits.largest
    unfold UInt32.size at hplace
    omega
  have hoffset : place + 4 + StoredFileHeader.byteSize = place + 24 := rfl
  unfold readSections Headers.readSections
  rw [add_eq (by omega), ok_bind, add_eq hfits, ok_bind]
  dsimp only
  rw [hoffset]
  cases hdecoded : SectionTable.read file header.longNames
      (place + 24 + header.optionalSize.toNat) header.sectionCount with
  | error fault => rfl
  | ok decoded =>
    obtain ⟨hlength, hnumbers⟩ := SectionTable.numbers_of_read hdecoded
    have hrows : numberRows 0 decoded.headers = .ok decoded.headers := by
      refine numberRows_eq (fun i row hrow => ?_) ?_
      · rw [hnumbers i row hrow, Nat.zero_add]
      · rw [hlength, Limits.largest]
        omega
    change (numberRows 0 decoded.headers >>= fun headers => .ok ⟨headers⟩) = .ok decoded
    rw [hrows]
    rfl

end Headers

/-- Steps in sequence meet the trap for the reserved directory in one of them. -/
theorem trapReserved_bind {α β : Type} (first : Except Fault α) (next : α → Except Fault β) :
    trapReserved (first >>= next) =
      trapReserved first >>= fun value => trapReserved (next value) := by
  cases first with
  | error fault => cases fault <;> rfl
  | ok value => rfl

/-- Nothing but the use of the reserved directory is a trap. -/
theorem trapReserved_of_ne {α : Type} {result : Except Fault α}
    (h : result ≠ .error .reservedDirectory) : trapReserved result = ofResult result := by
  cases result with
  | error fault => cases fault <;> first | rfl | exact absurd rfl h
  | ok value => rfl

/-- An exact computation meets no trap. -/
theorem ofResult_ne_trap {α : Type} (result : Except Fault α) (cause : Trap) :
    ofResult result ≠ trap cause := by
  cases result <;> exact fun h => nomatch h

/-- A decoder of headers does not look at the reserved directory. -/
theorem trapReserved_ofHeader {α : Type} (result : Except HeaderFault α) :
    trapReserved (ofHeader result) = ofResult (ofHeader result) := by
  cases result <;> rfl

/-- The headers are the exact ones, or a trap where the reserved directory is in use. -/
theorem readHeaders_eq (file : Bytes) :
    readHeaders file = trapReserved (Headers.read file) := by
  unfold readHeaders Headers.read
  simp only [trapReserved_bind, trapReserved_ofHeader]
  refine bind_congr fun place => bind_congr fun _ => bind_congr fun header => ?_
  rw [readOptional_eq, readSections_eq file place.toNat header place.toNat_lt,
    Headers.readSections, trapReserved_ofHeader]
  rfl

/-- Loading ends as exact loading does, or with a trap where the reserved directory is in use. -/
theorem load_eq (contents : Option Bytes) : load contents = trapReserved (Image.load contents) := by
  have hopen : trapReserved (openContents contents) = ofResult (openContents contents) := by
    cases contents with
    | none => rfl
    | some file =>
      rw [openContents_some]
      split <;> rfl
  unfold load Image.load
  rw [trapReserved_bind, hopen]
  refine bind_congr fun file => ?_
  rw [clampDirectoryCount?_eq, ok_bind, readHeaders_eq, Image.ofFile, trapReserved_bind]
  rfl

/-- Loading a file meets a trap exactly where the file uses the reserved directory: a file that is
an image up to a directory array of sixteen entries, the last of which is not zero. Everywhere else,
and nowhere else, it ends as exact loading does, with an image or with a fault. -/
theorem load_eq_trap_iff (file : Bytes) :
    ((∃ cause, load (some file) = trap cause) ↔ Image.UsesReserved file) ∧
      (load (some file) = ofResult (Image.load (some file)) ↔ ¬ Image.UsesReserved file) := by
  rw [← Image.load_eq_reserved, load_eq]
  by_cases hreserved : Image.load (some file) = .error .reservedDirectory
  · rw [hreserved]
    exact ⟨iff_of_true ⟨.unreachable, rfl⟩ rfl,
      iff_of_false (fun h => nomatch h) fun h => h rfl⟩
  · rw [trapReserved_of_ne hreserved]
    exact ⟨iff_of_false (fun ⟨cause, h⟩ => ofResult_ne_trap _ cause h) hreserved,
      iff_of_true rfl hreserved⟩

/-- A file with sixteen directories, of which the reserved one is in use, and one section. -/
def reservedFile : Bytes :=
  OptionalHeader.headersOnly 0xE0 16
    (List.replicate 120 0 ++ [0, 0x10, 0, 0, 8, 0, 0, 0] ++ List.replicate 40 0)

theorem usesReserved_reservedFile : Image.UsesReserved reservedFile := by
  have hpointer : reservedFile.u32 0x3C = 0x40 := OptionalHeader.imageHeader_headersOnly ..
  have hplace : OptionalHeader.countPlace reservedFile = 180 :=
    OptionalHeader.countPlace_headersOnly ..
  have hsize : reservedFile.size = 352 := by
    rw [reservedFile, OptionalHeader.size_headersOnly]
    simp only [List.length_append, List.length_replicate, List.length_cons, List.length_nil]
  have hcount : (reservedFile.u32 180).toNat = 16 := OptionalHeader.u32_headersOnly ..
  rw [Image.usesReserved_iff, hpointer, hplace, hsize, hcount]
  exact ⟨by decide +kernel, by decide +kernel, by decide, rfl, by decide +kernel,
    Or.inl (by decide +kernel), by decide, by decide, by decide +kernel⟩

/-- Loading the file meets the trap. -/
theorem load_reservedFile : load (some reservedFile) = trap .unreachable := by
  rw [load_eq, (Image.load_eq_reserved reservedFile).mpr usesReserved_reservedFile]
  rfl

end PeImage.Checked
