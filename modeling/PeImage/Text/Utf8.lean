/-!
# UTF-8

Bytes are read by a machine that takes one byte at a time and holds what a started character
still needs. A byte that the character cannot go on with ends it there, and that byte is then
read as the first of the next one, so every maximal piece that starts no character gives exactly
one fault. The lossy reading writes U+FFFD for a fault, the strict reading refuses it.
-/

namespace PeImage.Utf8

/-- A character that has started: the continuation bytes owed after the next one, the range the
next one must lie in, and the code point bits read so far. -/
structure Pending where
  further : Nat
  least : UInt8
  greatest : UInt8
  bits : Nat
  deriving DecidableEq, Repr

/-- What one byte leads to. -/
inductive Step
  | whole (char : Char)
  | more (pending : Pending)
  | refused
  deriving DecidableEq, Repr

/-- The first byte of a character. -/
def first (byte : UInt8) : Step :=
  let n := byte.toNat
  if n < 0x80 then .whole (Char.ofNat n)
  else if n < 0xC2 then .refused
  else if n < 0xE0 then .more ⟨0, 0x80, 0xBF, n - 0xC0⟩
  else if n < 0xF0 then
    .more ⟨1, if n = 0xE0 then 0xA0 else 0x80, if n = 0xED then 0x9F else 0xBF, n - 0xE0⟩
  else if n < 0xF5 then
    .more ⟨2, if n = 0xF0 then 0x90 else 0x80, if n = 0xF4 then 0x8F else 0xBF, n - 0xF0⟩
  else .refused

/-- A later byte of a character. -/
def Pending.next (pending : Pending) (byte : UInt8) : Step :=
  if pending.least ≤ byte ∧ byte ≤ pending.greatest then
    let bits := pending.bits * 64 + (byte.toNat - 0x80)
    match pending.further with
    | 0 => .whole (Char.ofNat bits)
    | further + 1 => .more ⟨further, 0x80, 0xBF, bits⟩
  else .refused

/-- The pieces a step completes, with `none` for a fault, and the character it leaves open. -/
def Step.outcome : Step → List (Option Char) × Option Pending
  | whole char => ([some char], none)
  | more pending => ([], some pending)
  | refused => ([none], none)

/-- Reads one byte. A byte refused by the open character closes it as a fault and is then read as
a first byte. -/
def feed : Option Pending → UInt8 → List (Option Char) × Option Pending
  | none, byte => (first byte).outcome
  | some pending, byte =>
    match pending.next byte with
    | .refused => (none :: (first byte).outcome.1, (first byte).outcome.2)
    | step => step.outcome

/-- The characters of a list of bytes, with `none` for each fault. -/
def scan : Option Pending → List UInt8 → List (Option Char)
  | none, [] => []
  | some _, [] => [none]
  | state, byte :: rest => (feed state byte).1 ++ scan (feed state byte).2 rest

/-- The character that stands for what cannot be read. -/
def replacement : Char := '\uFFFD'

/-- The text of a list of bytes, with U+FFFD for each fault. -/
def decode (octets : List UInt8) : String :=
  String.ofList ((scan none octets).map (·.getD replacement))

/-- The text of a list of bytes, if it has no fault. -/
def decode? (octets : List UInt8) : Option String :=
  ((scan none octets).mapM id).map String.ofList

/-- The bytes of a text. -/
def encode (text : String) : List UInt8 := text.toList.flatMap String.utf8EncodeChar

end PeImage.Utf8
