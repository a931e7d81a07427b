import PeImage.Image.Tables
import PeImage.Proofs.Checked.Export
import PeImage.Proofs.Checked.Import
import PeImage.Proofs.Checked.Resource

/-!
# No header meets a trap

Everything that can be asked of an image, answered once exactly and once with checked steps. The
headers are arbitrary, and so are the limits and what the request asks for: all that is assumed is
that the size of the file and the limit on depth are words, which they are wherever there is such a
file or such a limit. The two answers are equal, so no request meets a trap, whatever the file and
its headers say. The readers of the three tables, asked for a window of their own, end with the
result or with the fault of the exact ones.
-/

namespace PeImage

/-- What can be asked of an image. -/
inductive Image.Request
  | fileOffset (rva : UInt32)
  | fileOffsetFor (key : DirectoryKey)
  | fileOffsetOfAbsolute (address : UInt64)
  | rvaOfOffset (offset : Nat)
  | sectionAt (rva : UInt32)
  | sectionNamed (name : String)
  | sectionNumbered (number : Nat)
  | sectionFor (key : DirectoryKey)
  | entryPointSection
  | readSize (header : SectionHeader)
  | contentNamed (name : String)
  | contentNumbered (number : Nat)
  | contentFor (key : DirectoryKey)
  | contentAt (rva : UInt32)
  | window (key : DirectoryKey)
  | slice (rva : UInt32) (length : Nat)
  | exports
  | imports
  | resources
  deriving DecidableEq, Repr

/-- What a request is answered with. -/
abbrev Image.Request.Answer : Image.Request → Type
  | fileOffset _ | fileOffsetFor _ | fileOffsetOfAbsolute _ => Option Nat
  | rvaOfOffset _ => Option UInt32
  | sectionAt _ | sectionFor _ | entryPointSection => Option SectionHeader
  | sectionNamed _ | sectionNumbered _ => Except Fault SectionHeader
  | readSize _ => Nat
  | contentNamed _ | contentNumbered _ => Except Fault SectionContent
  | contentFor _ | contentAt _ => Option SectionContent
  | window _ => Option DirectoryWindow
  | slice _ _ => Option Bytes
  | exports => Option ExportTable
  | imports => Option ImportTable
  | resources => Option ResourceDirectory

/-- The answer to a request. -/
def Image.answer (image : Image) (limits : Limits) : (request : Image.Request) → request.Answer
  | .fileOffset rva => image.fileOffset? rva
  | .fileOffsetFor key => image.fileOffsetFor? key
  | .fileOffsetOfAbsolute address => image.fileOffsetOfAbsolute? address
  | .rvaOfOffset offset => image.rvaOfOffset? offset
  | .sectionAt rva => image.sections.byRva? rva
  | .sectionNamed name => image.sections.byName name
  | .sectionNumbered number => image.sections.byNumber number
  | .sectionFor key => image.sectionFor? key
  | .entryPointSection => image.entryPointSection?
  | .readSize header => image.readSize header
  | .contentNamed name => image.contentNamed name
  | .contentNumbered number => image.contentNumbered number
  | .contentFor key => image.contentFor? key
  | .contentAt rva => image.contentAt? rva
  | .window key => image.window? key
  | .slice rva length => image.addressSpace.slice? rva length
  | .exports => image.exports? limits
  | .imports => image.imports? limits
  | .resources => image.resources? limits

namespace Checked

/-- A declared table decoded by a reader of its window. -/
def table? {α : Type} (image : Image) (key : DirectoryKey)
    (read : DirectoryWindow → Checked α) : Checked (Option α) := do
  match ← window? image key with
  | none => return none
  | some window => return (← attempt (read window)).toOption

/-- The answer to a request. Names are looked up, and the size of a section is clipped to the file,
without partial steps. -/
def answer (image : Image) (limits : Limits) : (request : Image.Request) → Checked request.Answer
  | .fileOffset rva => fileOffset? image rva
  | .fileOffsetFor key => fileOffsetFor? image key
  | .fileOffsetOfAbsolute address => fileOffsetOfAbsolute? image address
  | .rvaOfOffset offset => rvaOfOffset? image offset
  | .sectionAt rva => byRva? image.sections rva
  | .sectionNamed name => return image.sections.byName name
  | .sectionNumbered number => attempt (byNumber image.sections number)
  | .sectionFor key => sectionFor? image key
  | .entryPointSection => byRva? image.sections image.optional.entryPoint
  | .readSize header => return image.readSize header
  | .contentNamed name => attempt do content image (← ofResult (image.sections.byName name))
  | .contentNumbered number => attempt do content image (← byNumber image.sections number)
  | .contentFor key => do contentOf? image (← sectionFor? image key)
  | .contentAt rva => do contentOf? image (← byRva? image.sections rva)
  | .window key => window? image key
  | .slice rva length => slice? image rva length
  | .exports => table? image .exportTable (exportTable · (.ofImage image) limits)
  | .imports => table? image .importTable (importTable · (.ofImage image) limits)
  | .resources => table? image .resourceTable (resourceTree · limits)

section Answers

variable (image : Image) (hsize : image.file.size ≤ Limits.largest)

include hsize

/-- A content that is asked of a section is cut out, or refused, without a trap. -/
theorem attempt_content_eq (found : Except Fault SectionHeader) :
    attempt (ofResult found >>= content image) = .ok (found.map image.content) := by
  cases found with
  | error fault => rfl
  | ok header =>
    rw [ofResult_ok, ok_bind, content_eq image hsize]
    rfl

/-- A declared table is decoded without a trap if its reader meets none. -/
theorem table?_eq {α : Type} (key : DirectoryKey) {read : DirectoryWindow → Checked α}
    {exact : DirectoryWindow → Except Fault α}
    (h : ∀ window, window.data.size ≤ Limits.largest → read window = ofResult (exact window)) :
    table? image key read = .ok (image.table? key exact) := by
  rw [table?, window?_eq image hsize, ok_bind, Image.table?]
  cases hwindow : image.window? key with
  | none => rfl
  | some window =>
    have hwindowSize : window.data.size ≤ Limits.largest := by
      unfold Image.window? at hwindow
      obtain ⟨range, _, hwindow⟩ := Option.bind_eq_some_iff.mp hwindow
      obtain ⟨offset, _, hwindow⟩ := Option.bind_eq_some_iff.mp hwindow
      obtain rfl := Option.some.inj hwindow
      exact Bytes.size_clip_le hsize _ _
    dsimp only
    rw [h window hwindowSize, attempt_ofResult]
    rfl

end Answers

/-- Whatever the headers of an image, the limits and the request, the answer is found without a
trap, and no failure that is taken to be impossible comes up on the way. The readers of the tables
meet no trap either on any window of any source, and give the result or the fault of the exact
readers. -/
theorem answer_eq_ok (limits : Limits) (hdepth : limits.resourceDepth ≤ Limits.largest) :
    (∀ image : Image, image.file.size ≤ Limits.largest → ∀ request,
      answer image limits request = .ok (image.answer limits request)) ∧
    ∀ (window : DirectoryWindow) (source : Source) (space : AddressSpace),
      window.data.size ≤ Limits.largest → source.Realizes space →
        exportTable window source limits = ofResult (ExportTable.read window space limits) ∧
        importTable window source limits = ofResult (ImportTable.read window space limits) ∧
        resourceTree window limits = ofResult (ResourceDirectory.read window limits) := by
  have hreaders (window : DirectoryWindow) (source : Source) (space : AddressSpace)
      (hsize : window.data.size ≤ Limits.largest) (hsource : source.Realizes space) :
      exportTable window source limits = ofResult (ExportTable.read window space limits) ∧
        importTable window source limits = ofResult (ImportTable.read window space limits) ∧
        resourceTree window limits = ofResult (ResourceDirectory.read window limits) :=
    ⟨hsource.exportTable_eq window limits hsize, hsource.importTable_eq limits window hsize,
      resourceTree_eq window limits hsize hdepth⟩
  refine ⟨fun image hsize request => ?_, hreaders⟩
  have hsource := Source.ofImage_realizes image hsize
  cases request with
  | fileOffset rva => exact fileOffset?_eq image rva
  | fileOffsetFor key => exact fileOffsetFor?_eq image key
  | fileOffsetOfAbsolute address => exact fileOffsetOfAbsolute?_eq image address
  | rvaOfOffset offset => exact rvaOfOffset?_eq image offset
  | sectionAt rva => exact byRva?_eq image.sections rva
  | sectionNamed name => rfl
  | sectionNumbered number =>
    rw [answer, byNumber_eq, attempt_ofResult]
    rfl
  | sectionFor key => exact sectionFor?_eq image key
  | entryPointSection => exact byRva?_eq image.sections image.optional.entryPoint
  | readSize header => rfl
  | contentNamed name => exact attempt_content_eq image hsize _
  | contentNumbered number =>
    rw [answer, byNumber_eq]
    exact attempt_content_eq image hsize _
  | contentFor key =>
    rw [answer, sectionFor?_eq, ok_bind]
    exact contentOf?_eq image hsize _
  | contentAt rva =>
    rw [answer, byRva?_eq, ok_bind]
    exact contentOf?_eq image hsize _
  | window key => exact window?_eq image hsize key
  | slice rva length => exact slice?_eq image hsize rva length
  | exports =>
    exact table?_eq image hsize .exportTable fun window hwindow =>
      (hreaders window _ _ hwindow hsource).1
  | imports =>
    exact table?_eq image hsize .importTable fun window hwindow =>
      (hreaders window _ _ hwindow hsource).2.1
  | resources =>
    exact table?_eq image hsize .resourceTable fun window hwindow =>
      (hreaders window _ _ hwindow hsource).2.2

/-- An image of sixteen zeros. Its section runs past the last address, and it declares resources that
are larger than the file. -/
def overstated : Image :=
  .ofParts (.ofOctets (List.replicate 16 0))
    ⟨[.ofValues ".rsrc" 1 0xFFFFF000 0xFFFFFFFF 0 0xFFFFFFFF 0]⟩
    (OptionalHeader.withDirectory {} .resourceTable ⟨0xFFFFF000, 0xFFFFFFFF⟩)

/-- The last address of an overstated image is far past the file, and its resources are those that
the file has. -/
theorem answer_eq_ok_overstated :
    answer overstated Limits.unbounded (.fileOffset 0xFFFFFFFF) = .ok (some 0xFFF) ∧
      answer overstated Limits.unbounded .resources = .ok (some ⟨⟨0, 0, 0, 0⟩, .nil⟩) ∧
      exportTable ⟨0xFFFFF000, overstated.file⟩ (.ofImage overstated) Limits.unbounded =
        refuse (.exportDirectoryShort 16) := by
  have hfile : overstated.file.size ≤ Limits.largest := by decide
  obtain ⟨himage, hreaders⟩ := answer_eq_ok Limits.unbounded (by decide)
  have haddress := himage overstated hfile (.fileOffset 0xFFFFFFFF)
  have hresources := himage overstated hfile .resources
  have hexports := (hreaders ⟨0xFFFFF000, overstated.file⟩ (.ofImage overstated)
    overstated.addressSpace hfile (Source.ofImage_realizes overstated hfile)).1
  have haddressValue : overstated.answer Limits.unbounded (.fileOffset 0xFFFFFFFF) = some 0xFFF := by
    rfl
  have hresourcesValue : overstated.answer Limits.unbounded .resources =
      some ⟨⟨0, 0, 0, 0⟩, .nil⟩ := by rfl
  rw [haddressValue] at haddress
  rw [hresourcesValue] at hresources
  exact ⟨haddress, hresources, hexports⟩

end Checked

end PeImage
