import PeImage.Bytes.Cursor
import PeImage.Image.Load
import PeImage.Image.Tables
import PeImage.Proofs.Checked.CursorRun
import PeImage.Proofs.Checked.Image
import PeImage.Proofs.Checked.Load
import PeImage.Proofs.Checked.Record
import PeImage.Proofs.Checked.Slices
import PeImage.Proofs.Export.Limit
import PeImage.Proofs.Export.Lookup
import PeImage.Proofs.Export.Reference
import PeImage.Proofs.Header.DllFlags
import PeImage.Proofs.Header.Edits
import PeImage.Proofs.Header.RawName
import PeImage.Proofs.Image.Absence
import PeImage.Proofs.Image.Appended
import PeImage.Proofs.Image.Directories
import PeImage.Proofs.Image.OversizedCount
import PeImage.Proofs.Image.Reading
import PeImage.Proofs.Image.RoundTrip
import PeImage.Proofs.Image.Translation
import PeImage.Proofs.Import.Limits
import PeImage.Proofs.Import.Reference
import PeImage.Proofs.Resource.Bounded
import PeImage.Proofs.Resource.Budget
import PeImage.Proofs.Resource.Depth
import PeImage.Proofs.Resource.Leaves
import PeImage.Proofs.Text.Counted
import PeImage.Proofs.TextCap
