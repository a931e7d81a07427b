import PeImage.Text.Numeral

/-!
# Faults

Everything that can go wrong, as causes. The wording of each cause is in one place, `message`; no
other definition looks at text.
-/

namespace PeImage

/-- Why the headers of an image cannot be decoded. -/
inductive HeaderFault
  /-- A field starts past the end of the file. -/
  | offsetPastEnd (offset : Nat)
  /-- A field of some size has fewer bytes left. -/
  | fieldCut (size available : Nat)
  /-- The file is too short for a signature. -/
  | dosSignatureMissing
  /-- The file does not start with the signature `MZ`. -/
  | dosSignature (value : UInt16)
  /-- The file is too short for the place of the image header. -/
  | imageHeaderPlaceMissing
  /-- No signature can be read where the image header should be. -/
  | imageSignatureMissing (place : UInt32)
  /-- The image header does not start with the signature `PE`. -/
  | imageSignature (value : UInt32)
  /-- The image header would start inside the DOS header. -/
  | imageHeaderTooEarly (place : UInt32)
  /-- The rich header has an end mark and no start mark. -/
  | richStartMissing
  /-- The start mark of the rich header lies behind its end mark. -/
  | richStartPastEnd (start stop : Nat)
  /-- The optional header is of no known kind. -/
  | optionalMagic (value : UInt16)
  /-- The file is too short for the declared number of section headers. -/
  | tooManySections (count : UInt16)
  /-- A section name that refers to a long name is not text. -/
  | longNameNotText
  /-- A section name refers to a long name by no digits. -/
  | longNameWithoutDigits
  /-- A section name refers to a long name by something that is not a decimal number. -/
  | longNameNotDecimal (digits : String)
  /-- A section name refers to a long name by something that is not a base 64 number. -/
  | longNameNotBase64 (digits : String)
  deriving DecidableEq, Repr

/-- Why a request is refused. -/
inductive Fault
  /-- The file cannot be opened. -/
  | unopened
  /-- The file has no bytes. -/
  | empty
  /-- A read would go past the end of the bytes it reads. -/
  | outOfBounds
  /-- No section has the name. -/
  | noSectionNamed (name : String)
  /-- No section has the position, counted from one. -/
  | noSectionNumbered (number count : Nat)
  /-- The image has no optional header. -/
  | noOptionalHeader
  /-- The address of a string leads nowhere. -/
  | stringUnresolved (rva : UInt32)
  /-- The export directory is shorter than its fixed part. -/
  | exportDirectoryShort (size : Nat)
  /-- The address of the export address table leads nowhere. -/
  | exportAddressesUnresolved (rva : UInt32)
  /-- The import directory is shorter than one descriptor. -/
  | importDirectoryShort (size : Nat)
  /-- A resource directory contains itself. -/
  | resourceCycle (offset : Nat)
  /-- The headers cannot be decoded. -/
  | header (cause : HeaderFault)
  /-- The reserved last data directory is in use. An engine does not refuse such a file: it takes the
  entry to be impossible and stops with a panic, which is the trap of checked loading. -/
  | reservedDirectory
  deriving DecidableEq, Repr

/-- The wording of a header fault. -/
def HeaderFault.message : HeaderFault → String
  | offsetPastEnd offset => s!"bad offset {offset}"
  | fieldCut size available => s!"type is too big ({size}) for {available}"
  | dosSignatureMissing => malformed "cannot parse DOS signature (offset 0x0)"
  | dosSignature value =>
    malformed s!"DOS header is malformed (signature {Numeral.address value.toNat})"
  | imageHeaderPlaceMissing => malformed "cannot parse PE header pointer (offset 0x3c)"
  | imageSignatureMissing place =>
    malformed s!"cannot parse PE header signature (offset {Numeral.address place.toNat})"
  | imageSignature value =>
    malformed s!"PE header is malformed (signature {Numeral.address value.toNat})"
  | imageHeaderTooEarly place =>
    malformed (s!"PE pointer ({Numeral.address place.toNat}) cannot be before the DOS stub start "
      ++ "(0x40)")
  | richStartMissing => malformed "Rich header does not contain the DanS marker"
  | richStartPastEnd start stop =>
    malformed (s!"Rich start offset (0x{Numeral.hexUpper start}) exceeds rich header length "
      ++ s!"(0x{Numeral.hexUpper stop})")
  | optionalMagic value => s!"Invalid magic number: {Numeral.address value.toNat}"
  | tooManySections count => s!"Buffer is too short for {count} sections"
  | longNameNotText => malformed "Invalid UTF-8 in section name"
  | longNameWithoutDigits =>
    malformed "Invalid indirect section name /: cannot parse integer from empty string"
  | longNameNotDecimal digits =>
    malformed s!"Invalid indirect section name /{digits}: invalid digit found in string"
  | longNameNotBase64 digits =>
    malformed s!"Invalid indirect section name //{digits}: base64 decoding failed"
where
  malformed (text : String) : String := "Malformed entity: " ++ text

/-- The wording of a fault. -/
def Fault.message : Fault → String
  | unopened => "File cannot be opened"
  | empty => "Provided input was empty"
  | outOfBounds => "Out of bounds"
  | noSectionNamed name => "No section named '" ++ name ++ "'"
  | noSectionNumbered number count =>
    s!"Section number {number} is out of range, table holds {count} sections"
  | noOptionalHeader => "File does not have an OptionalHeader"
  | stringUnresolved rva => s!"String RVA {Numeral.address rva.toNat} does not resolve"
  | exportDirectoryShort size => s!"Export directory holds {size} bytes, expected at least 40"
  | exportAddressesUnresolved rva =>
    s!"Export address table at RVA {Numeral.address rva.toNat} does not resolve"
  | importDirectoryShort size => s!"Import directory of {size} bytes holds no descriptor"
  | resourceCycle offset =>
    s!"Resource directory at offset {Numeral.address offset} is its own ancestor"
  | header cause => cause.message
  -- A panic is no answer and has no wording of its own.
  | reservedDirectory => "The reserved data directory is in use"

end PeImage
