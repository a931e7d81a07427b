/-!
# Numerals

The written forms of numbers: hexadecimal for addresses and signatures, and the two forms in which
a section header writes the place of a long name, decimal digits and the 64 letters of the base 64
alphabet, both most significant digit first.
-/

namespace PeImage.Numeral

/-- The number in lower-case hexadecimal digits. -/
def hex (n : Nat) : String := String.ofList (Nat.toDigits 16 n)

/-- The number in upper-case hexadecimal digits. -/
def hexUpper (n : Nat) : String := String.ofList ((Nat.toDigits 16 n).map Char.toUpper)

/-- An address: lower-case hexadecimal digits after `0x`. -/
def address (n : Nat) : String := "0x" ++ hex n

/-- The value of a decimal digit. -/
def decimalDigit? (char : Char) : Option Nat :=
  if char.isDigit then some (char.toNat - '0'.toNat) else none

/-- The value of a letter of the base 64 alphabet. -/
def base64Digit? (char : Char) : Option Nat :=
  if char.isUpper then some (char.toNat - 'A'.toNat)
  else if char.isLower then some (char.toNat - 'a'.toNat + 26)
  else if char.isDigit then some (char.toNat - '0'.toNat + 52)
  else if char = '+' then some 62
  else if char = '/' then some 63
  else none

/-- The number written with the digits of a base, most significant first; no digits give zero. -/
def read? (base : Nat) (digit? : Char → Option Nat) (chars : List Char) : Option Nat :=
  chars.foldlM (fun n char => (digit? char).map (n * base + ·)) 0

/-- The number written in decimal digits. -/
def decimal? (chars : List Char) : Option Nat := read? 10 decimalDigit? chars

/-- The number written in base 64 letters. -/
def base64? (chars : List Char) : Option Nat := read? 64 base64Digit? chars

end PeImage.Numeral
