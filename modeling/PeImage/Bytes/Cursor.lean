import PeImage.Bytes.Integer
import PeImage.Fault
import PeImage.Text.Terminated
import PeImage.Text.Utf16

/-!
# Cursor

A place in a byte string from which values are read in sequence. An operation that would leave
the bytes is refused and the cursor stays where it was; `step` performs one request in that way,
and `run` a list of them.
-/

namespace PeImage

/-- A place in a byte string. -/
structure Cursor where
  data : Bytes
  position : Nat

namespace Cursor

/-- A cursor at the start of the bytes. -/
def ofBytes (data : Bytes) : Cursor := ⟨data, 0⟩

/-- The bytes between the cursor and the end. -/
def remaining (cursor : Cursor) : Nat := cursor.data.size - cursor.position

/-- Whether a byte is left. -/
def hasMore (cursor : Cursor) : Bool := cursor.position < cursor.data.size

/-- The cursor at another place; the end of the bytes is one. -/
def seek (cursor : Cursor) (position : Nat) : Except Fault Cursor :=
  if position ≤ cursor.data.size then .ok { cursor with position } else .error .outOfBounds

/-- The place `count` bytes on. -/
def placeAfter (cursor : Cursor) (count : Nat) : Except Fault Nat :=
  if cursor.position + count ≤ cursor.data.size then .ok (cursor.position + count)
  else .error .outOfBounds

/-- The cursor `count` bytes on. -/
def advance (cursor : Cursor) (count : Nat) : Except Fault Cursor := do
  let position ← cursor.placeAfter count
  return { cursor with position }

/-- The next `count` bytes. -/
def take (cursor : Cursor) (count : Nat) : Except Fault (Bytes × Cursor) := do
  let next ← cursor.advance count
  return (cursor.data.clip cursor.position count, next)

/-- The next integer of a format. -/
def integer (cursor : Cursor) (format : IntFormat) : Except Fault (Int × Cursor) :=
  match format.readAt? cursor.data cursor.position with
  | some (value, position) => .ok (value, { cursor with position })
  | none => .error .outOfBounds

/-- The next terminated string of at most `cap` bytes. Its NUL, also one that stands right at the
cap, is passed over. -/
def text (cursor : Cursor) (cap : Nat) : Except Fault (String × Cursor) :=
  if cursor.hasMore then
    let octets := cursor.data.terminatedAt cursor.position cap
    let stop := cursor.position + octets.length
    let position := if stop < cursor.data.size ∧ cursor.data.u8 stop = 0 then stop + 1 else stop
    .ok (Utf8.decode octets, { cursor with position })
  else .error .outOfBounds

/-- The next counted UTF-16 string. -/
def wideText (cursor : Cursor) : Except Fault (String × Cursor) :=
  match Utf16.countedUnits? cursor.data cursor.position with
  | some units =>
    .ok (Utf16.text units, { cursor with position := cursor.position + (2 + 2 * units.length) })
  | none => .error .outOfBounds

/-- What can be asked of a cursor. -/
inductive Request
  | seek (position : Nat)
  | advance (count : Nat)
  | placeAfter (count : Nat)
  | take (count : Nat)
  | integer (format : IntFormat)
  | text (cap : Nat)
  | wideText
  deriving DecidableEq, Repr

/-- What a request is answered with. -/
inductive Answer
  | moved
  | place (position : Nat)
  | bytes (bytes : Bytes)
  | integer (value : Int)
  | text (text : String)

/-- Performs a request and gives the cursor after it. -/
def perform (cursor : Cursor) : Request → Except Fault (Answer × Cursor)
  | .seek position => (cursor.seek position).map (.moved, ·)
  | .advance count => (cursor.advance count).map (.moved, ·)
  | .placeAfter count => (cursor.placeAfter count).map fun position => (.place position, cursor)
  | .take count => (cursor.take count).map fun (bytes, next) => (.bytes bytes, next)
  | .integer format => (cursor.integer format).map fun (value, next) => (.integer value, next)
  | .text cap => (cursor.text cap).map fun (text, next) => (.text text, next)
  | .wideText => cursor.wideText.map fun (text, next) => (.text text, next)

/-- The answer to a request and the cursor after it, unmoved where the request is refused. -/
def step (cursor : Cursor) (request : Request) : Except Fault Answer × Cursor :=
  match cursor.perform request with
  | .ok (answer, next) => (.ok answer, next)
  | .error fault => (.error fault, cursor)

/-- The answers to a list of requests in sequence, each with the cursor after it. -/
def run : Cursor → List Request → List (Except Fault Answer × Cursor)
  | _, [] => []
  | cursor, request :: rest => cursor.step request :: run (cursor.step request).2 rest

end Cursor

end PeImage
