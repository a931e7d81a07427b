import PeImage.Proofs.Checked.Address

/-!
# Sources of bytes

The readers of tables follow addresses through a source, which cuts the bytes of an address out of
an image. A source realizes an address space when it gives the slices of the space and meets no
trap; the strings and arrays that are read from those slices are then the ones of the space. An
array is cut out with a length that is limited to a word, which loses nothing.
-/

namespace PeImage.Checked

/-- Where the bytes of an address are had from. -/
structure Source where
  slice? : (rva : UInt32) → (length : Nat) → Checked (Option Bytes)
  isWide : Bool

namespace Source

/-- The sections of an image as a source. -/
def ofImage (image : Image) : Source := ⟨Checked.slice? image, image.optional.isWide⟩

/-- The source gives the slices of an address space. -/
structure Realizes (source : Source) (space : AddressSpace) : Prop where
  size : space.bytes.size ≤ Limits.largest
  slice : ∀ rva length, source.slice? rva length = .ok (space.slice? rva length)
  isWide : source.isWide = space.isWide

/-- The terminated string at an address, which is expected to lead somewhere. -/
def text (source : Source) (rva : UInt32) (cap : Nat) : Checked String := do
  match ← source.slice? rva cap with
  | none => refuse (.stringUnresolved rva)
  | some data =>
    if data.size = 0 then refuse (.stringUnresolved rva)
    else return (← Checked.text cap (Cursor.ofBytes data)).1

/-- The whole numbers of `width` bytes from an address on, at most `limit` of them. -/
def words? (source : Source) (rva : UInt32) (width : Nat) (hwidth : 0 < width) (limit : Nat) :
    Checked (Option (List Nat)) :=
  if limit = 0 then .ok (some [])
  else do
    match ← source.slice? rva (mulUpTo limit width) with
    | none => return none
    | some data => return some (← numbers width hwidth (Cursor.ofBytes data))

/-- The sections of an image realize its address space. -/
theorem ofImage_realizes (image : Image) (hsize : image.file.size ≤ Limits.largest) :
    (ofImage image).Realizes image.addressSpace :=
  ⟨hsize, slice?_eq image hsize, rfl⟩

end Source

/-- An address that resolves leads to a byte. -/
theorem lt_size_of_offset? {space : AddressSpace} {rva : UInt32} {offset : Nat}
    (h : space.offset? rva = some offset) : offset < space.bytes.size := by
  obtain ⟨_, hinside⟩ := Option.filter_eq_some_iff.mp h
  exact of_decide_eq_true hinside

namespace Source.Realizes

variable {source : Source} {space : AddressSpace} (h : source.Realizes space)

include h

/-- The string at an address is that of the address space. -/
theorem text_eq (rva : UInt32) (cap : Nat) :
    source.text rva cap = ofResult (space.text rva cap) := by
  rw [Source.text, h.slice, ok_bind, AddressSpace.slice?, AddressSpace.text, AddressSpace.text?]
  cases hoffset : space.offset? rva with
  | none =>
    rw [Option.map_none, Option.map_none, ite_self]
    rfl
  | some offset =>
    have hinside := lt_size_of_offset? hoffset
    have hpart := Bytes.size_clip space.bytes offset cap
    rw [Option.map_some, Option.map_some]
    dsimp only
    by_cases hcap : cap = 0
    · rw [if_pos (by omega), if_pos hcap]
      rfl
    · obtain ⟨next, htext⟩ := text_of_inside cap (Cursor.ofBytes (space.bytes.clip offset cap))
        (Bytes.size_clip_le h.size _ _)
        (show 0 < (space.bytes.clip offset cap).size by omega)
      have hpartText : (space.bytes.clip offset cap).textAt 0 cap = space.bytes.textAt offset cap :=
        Bytes.textAt_clip _ _ (Nat.le_of_eq (Nat.zero_add cap))
      rw [if_neg (by omega), if_neg hcap, htext, ok_bind]
      exact congrArg Except.ok hpartText

/-- The numbers at an address are those of the address space. -/
theorem words?_eq (rva : UInt32) (width : Nat) (hwidth : 0 < width) (limit : Nat) :
    source.words? rva width hwidth limit =
      .ok (if limit = 0 then some [] else space.words? rva width limit) := by
  unfold Source.words?
  split
  · rfl
  · rw [h.slice, ok_bind, AddressSpace.slice?, AddressSpace.words?]
    cases hoffset : space.offset? rva with
    | none => rfl
    | some offset =>
      let part := space.bytes.clip offset (limit * width)
      have hnumbers := numbers_eq width hwidth (Cursor.ofBytes part)
        (Bytes.size_clip_le h.size _ _) (Nat.zero_le _) (limit + part.size)
        (Nat.le_trans (Nat.sub_le _ _) (Nat.le_add_left _ _))
      have hwords : part.wordsAt 0 width (limit + part.size) =
          space.bytes.wordsAt offset width limit :=
        Bytes.wordsAt_clip _ _ hwidth (Nat.le_add_right _ _)
      rw [Option.map_some, Option.map_some, mulUpTo, Bytes.clip_min_largest _ h.size]
      dsimp only
      rw [hnumbers, ok_bind]
      exact congrArg (fun words => Except.ok (some words)) hwords

end Source.Realizes

end PeImage.Checked
