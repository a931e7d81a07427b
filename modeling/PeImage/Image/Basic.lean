import PeImage.Header.Coff
import PeImage.Header.Optional
import PeImage.Header.SectionTable

/-!
# Image

An executable image: the bytes of its file together with what its headers say. The headers may
come from the file itself or be put together by hand, so nothing relates them to the bytes.
-/

namespace PeImage

/-- An executable image. -/
structure Image where
  file : Bytes
  fileHeader : FileHeader
  optional : OptionalHeader
  sections : SectionTable

/-- The contents of a file, `none` standing for one that cannot be opened. A file without bytes is
refused. -/
def openContents : Option Bytes → Except Fault Bytes
  | none => .error .unopened
  | some contents => if contents.size = 0 then .error .empty else .ok contents

namespace Image

/-- An image from headers put together by hand. The file header says no more than the number of
sections, as far as it can hold it. -/
def ofParts (file : Bytes) (sections : SectionTable) (optional : OptionalHeader) : Image where
  file := file
  fileHeader := { sectionCount := UInt16.ofNat (min sections.size 0xFFFF) }
  optional := optional
  sections := sections

end Image

end PeImage
