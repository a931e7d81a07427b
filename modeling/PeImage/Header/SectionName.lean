import PeImage.Bytes.Basic
import PeImage.Fault
import PeImage.Text.Terminated

/-!
# Long section names

A name that does not fit into a section header is kept with the long names of the file. The header
then holds its distance from their start instead: after one slash in decimal digits, after two
slashes in base 64 letters.
-/

namespace PeImage.SectionName

/-- The digits of a distance: the bytes before the first NUL, which have to be text. -/
def digits (octets : List UInt8) : Except HeaderFault String :=
  match Utf8.decode? (octets.takeWhile (· ≠ 0)) with
  | some text => .ok text
  | none => .error .longNameNotText

/-- The distance written in decimal digits, with a plus sign before them or without. -/
def decimalDistance (text : String) : Except HeaderFault Nat :=
  let written := match text.toList with
    | '+' :: rest => rest
    | chars => chars
  if text.isEmpty then .error .longNameWithoutDigits
  else if written = [] then .error (.longNameNotDecimal text)
  else
    match Numeral.decimal? written with
    | some distance => .ok distance
    | none => .error (.longNameNotDecimal text)

/-- The distance written in base 64 letters. -/
def base64Distance (text : String) : Except HeaderFault Nat :=
  match Numeral.base64? text.toList with
  | some distance => .ok distance
  | none => .error (.longNameNotBase64 text)

/-- The distance of the long name that a raw name stands for, if it stands for one. -/
def distance? (rawName : List UInt8) : Except HeaderFault (Option Nat) :=
  let slash : UInt8 := 0x2F
  if rawName.head? ≠ some slash then .ok none
  else if rawName[1]? = some slash then do
    return some (← base64Distance (← digits (rawName.drop 2)))
  else do
    return some (← decimalDistance (← digits (rawName.drop 1)))

/-- The long name at an offset: the text before the first NUL or the end of the file. There is
none past the end, or where the bytes are not text. -/
def longNameAt? (file : Bytes) (offset : Nat) : Option String :=
  if offset ≤ file.size then Utf8.decode? (file.terminatedAt offset file.size) else none

/-- The long name that a raw name stands for, if it stands for one. The long names of the file start
at an offset. -/
def longName? (file : Bytes) (longNames : Nat) (rawName : List UInt8) :
    Except HeaderFault (Option String) := do
  match ← distance? rawName with
  | some distance => return longNameAt? file (longNames + distance)
  | none => return none

end PeImage.SectionName
