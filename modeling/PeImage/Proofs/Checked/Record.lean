import PeImage.Proofs.Bytes.Integer
import PeImage.Proofs.Checked.CursorRun

/-!
# Records of integers

A record is a list of integers, each stored in a format of its own, one behind the other and without
any padding. It may have anything in front of it and behind it. Reading the formats of the record in
turn gives back its values, because each read leaves the cursor where the next value starts.

The reader moves a cursor in place, in words: a place that is so far on that the end of the integer
is no word is refused like any other place with too few bytes behind it, and the cursor stays there.
-/

namespace PeImage

/-- An integer with a format that holds it. -/
structure TypedInt where
  format : IntFormat
  value : Int
  holds : format.Holds value

/-- The bytes of a record of integers. -/
def TypedInt.octets (record : List TypedInt) : List UInt8 :=
  record.flatMap fun field => field.format.toOctets field.value

namespace Checked.Move

/-- The next integers of a list of formats. -/
def integers : (formats : List IntFormat) → Move (List Int)
  | [] => return []
  | format :: rest => do
    let value ← integer format
    return value :: (← integers rest)

/-- An integer is read in place as the exact reader finds it at the cursor. -/
theorem integer_of_readAt? {cursor : Cursor} (hsize : cursor.data.size ≤ Limits.largest)
    {format : IntFormat} {value : Int} {stop : Nat}
    (h : format.readAt? cursor.data cursor.position = some (value, stop)) :
    integer format cursor = .ok value { cursor with position := stop } := by
  rw [integer_eq hsize, Cursor.integer, h]
  rfl

/-- The integers of a record that stands at a cursor are read, and the cursor is behind them. -/
theorem integers_of_stored (record : List TypedInt) (cursor : Cursor)
    (hsize : cursor.data.size ≤ Limits.largest)
    (hstored : cursor.data.Stores cursor.position (TypedInt.octets record)) :
    integers (record.map (·.format)) cursor = .ok (record.map (·.value))
      { cursor with position := cursor.position + (TypedInt.octets record).length } := by
  induction record generalizing cursor with
  | nil => rfl
  | cons field rest ih =>
    have hparts : TypedInt.octets (field :: rest) =
        field.format.toOctets field.value ++ TypedInt.octets rest := List.flatMap_cons
    rw [hparts, Bytes.stores_append, IntFormat.length_toOctets] at hstored
    obtain ⟨hfirst, hbehind⟩ := hstored
    have hread := integer_of_readAt? hsize
      (IntFormat.readAt?_eq_some.mpr ⟨field.holds, hfirst, rfl⟩)
    have hrest := ih { cursor with position := cursor.position + field.format.width } hsize hbehind
    rw [hparts, List.length_append, IntFormat.length_toOctets, ← Nat.add_assoc, List.map_cons,
      integers, bind_of_ok hread, bind_of_ok hrest]
    rfl

/-- Reading inverts writing over whole records. Whatever stands in front of a record and behind it,
reading its formats in turn gives its values and leaves the cursor behind the last of them. And in
any bytes, at any place, an integer is refused exactly if its end is past theirs, and then the
cursor stays; otherwise the value is the one whose bytes stand there. -/
theorem integers_read_back :
    (∀ (front back : List UInt8) (record : List TypedInt),
      let buffer : Bytes := .ofOctets (front ++ TypedInt.octets record ++ back)
      buffer.size ≤ Limits.largest →
        integers (record.map (·.format)) ⟨buffer, front.length⟩ =
          .ok (record.map (·.value)) ⟨buffer, (front ++ TypedInt.octets record).length⟩) ∧
    ∀ (cursor : Cursor) (format : IntFormat), cursor.data.size ≤ Limits.largest →
      (cursor.data.size < cursor.position + format.width →
        format.readAt? cursor.data cursor.position = none ∧
          integer format cursor = .error (.fault .outOfBounds) cursor) ∧
      (cursor.position + format.width ≤ cursor.data.size →
        ∃ value, format.Holds value ∧
          cursor.data.Stores cursor.position (format.toOctets value) ∧
          format.readAt? cursor.data cursor.position =
            some (value, cursor.position + format.width) ∧
          integer format cursor =
            .ok value { cursor with position := cursor.position + format.width }) := by
  refine ⟨fun front back record => ?_,
    fun cursor format hsize => ⟨fun hcut => ?_, fun hinside => ?_⟩⟩
  · intro buffer hsize
    have hstored : buffer.Stores front.length (TypedInt.octets record) :=
      ⟨back, by rw [Bytes.octets_ofOctets, List.append_assoc, List.drop_left]⟩
    rw [integers_of_stored record ⟨buffer, front.length⟩ hsize hstored, List.length_append]
  · exact ⟨IntFormat.readAt?_eq_none.mpr hcut, integer_of_cut format hcut⟩
  · cases hread : format.readAt? cursor.data cursor.position with
    | none => exact absurd (IntFormat.readAt?_eq_none.mp hread) (Nat.not_lt_of_le hinside)
    | some read =>
      obtain ⟨value, stop⟩ := read
      obtain ⟨hholds, hstored, rfl⟩ := IntFormat.readAt?_eq_some.mp hread
      exact ⟨value, hholds, hstored, rfl, integer_of_readAt? hsize hread⟩

/-- A negative integer of two bytes and the least one of eight. -/
def signedRecord : List TypedInt :=
  [⟨.i16, -2, by decide⟩, ⟨.i64, -0x8000000000000000, by decide⟩, ⟨.u8, 0xFF, by decide⟩]

/-- The record is read back from between two other bytes, and at the largest place an integer is
refused whose end is no word. -/
theorem integers_read_back_signedRecord :
    (Bytes.ofOctets ([7] ++ TypedInt.octets signedRecord ++ [9])).size ≤ Limits.largest ∧
      integers [.i16, .i64, .u8]
          ⟨.ofOctets ([7] ++ TypedInt.octets signedRecord ++ [9]), 1⟩ =
        .ok [-2, -0x8000000000000000, 0xFF]
          ⟨.ofOctets ([7] ++ TypedInt.octets signedRecord ++ [9]), 12⟩ ∧
      integer .u32 ⟨.ofOctets [1, 2, 3, 4, 5, 6, 7, 8], Limits.largest⟩ =
        .error (.fault .outOfBounds) ⟨.ofOctets [1, 2, 3, 4, 5, 6, 7, 8], Limits.largest⟩ := by
  have hsize : (Bytes.ofOctets ([7] ++ TypedInt.octets signedRecord ++ [9])).size ≤
      Limits.largest := by decide
  exact ⟨hsize, integers_read_back.1 [7] [9] signedRecord hsize,
    ((integers_read_back.2 ⟨.ofOctets [1, 2, 3, 4, 5, 6, 7, 8], Limits.largest⟩ .u32
      (by decide)).1 (by decide)).2⟩

end Checked.Move

end PeImage
