import PeImage.ExportTable
import PeImage.Image.Content
import PeImage.ImportTable
import PeImage.Resource.Read

/-!
# Tables of an image

The tables that the optional header of an image declares and that can be decoded further. A table
that is not declared, does not resolve or is broken is absent.
-/

namespace PeImage.Image

/-- A declared table decoded by a reader of its window. -/
def table? {α : Type} (image : Image) (key : DirectoryKey)
    (read : DirectoryWindow → Except Fault α) : Option α := do
  let window ← image.window? key
  (read window).toOption

/-- The export table. -/
def exports? (image : Image) (limits : Limits) : Option ExportTable :=
  image.table? .exportTable (ExportTable.read · image.addressSpace limits)

/-- The import table. -/
def imports? (image : Image) (limits : Limits) : Option ImportTable :=
  image.table? .importTable (ImportTable.read · image.addressSpace limits)

/-- The root of the resource tree. -/
def resources? (image : Image) (limits : Limits) : Option ResourceDirectory :=
  image.table? .resourceTable (ResourceDirectory.read · limits)

end PeImage.Image
