import PeImage.Bytes.Basic

/-!
# UTF-16

A character outside the basic plane is a high surrogate followed by a low one. A surrogate without
its partner stands for no character and is read as U+FFFD. A counted string is a 16-bit count of
units followed by that many units, each stored least significant byte first.
-/

namespace PeImage.Utf16

/-- The first unit of a pair. -/
def isHigh (unit : UInt16) : Bool := 0xD800 ≤ unit && unit < 0xDC00

/-- The second unit of a pair. -/
def isLow (unit : UInt16) : Bool := 0xDC00 ≤ unit && unit < 0xE000

/-- The character of a pair of surrogates. -/
def pair (high low : UInt16) : Char :=
  Char.ofNat (0x10000 + (high.toNat - 0xD800) * 0x400 + (low.toNat - 0xDC00))

/-- The character of a unit that is not part of a pair. -/
def single (unit : UInt16) : Char :=
  if isHigh unit || isLow unit then '\uFFFD' else Char.ofNat unit.toNat

/-- The characters of a list of units. -/
def decode : List UInt16 → List Char
  | [] => []
  | [unit] => [single unit]
  | unit :: next :: rest =>
    if isHigh unit && isLow next then pair unit next :: decode rest
    else single unit :: decode (next :: rest)

/-- The units of a character. -/
def encodeChar (char : Char) : List UInt16 :=
  if char.toNat < 0x10000 then [UInt16.ofNat char.toNat]
  else
    [UInt16.ofNat (0xD800 + (char.toNat - 0x10000) / 0x400),
      UInt16.ofNat (0xDC00 + (char.toNat - 0x10000) % 0x400)]

/-- The units of a text. -/
def encode (text : String) : List UInt16 := text.toList.flatMap encodeChar

/-- The units of the counted string at an offset, if all of its bytes lie inside. -/
def countedUnits? (bytes : Bytes) (offset : Nat) : Option (List UInt16) := do
  let count ← bytes.u16? offset
  if offset + 2 + 2 * count.toNat ≤ bytes.size then
    some ((bytes.wordsAt (offset + 2) 2 count.toNat).map UInt16.ofNat)
  else none

/-- The text of a list of units. -/
def text (units : List UInt16) : String := String.ofList (decode units)

end PeImage.Utf16
