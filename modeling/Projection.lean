import Projection.FileTree
import Projection.Main
import Projection.Proofs.Lowering.Meaning
import Projection.Proofs.Group.Closed
import Projection.Proofs.Site.Renamed
import Projection.Proofs.Expr.RoundTrip
import Projection.Proofs.Site.Handed
import Projection.Proofs.Lowering.Results
import Projection.Proofs.Capture.Exact
import Projection.Proofs.Lowering.Unchanged
import Projection.Proofs.Output.UpToDate
import Projection.Proofs.Grammar.Climbing
import Projection.Proofs.Interpolation.Format
import Projection.Proofs.Lowering.Depth
import Projection.Proofs.Lowering.Interpolated
import Projection.Proofs.TypeRef.Resolved
import Projection.Proofs.Host.Lookup
import Projection.Proofs.Typing.Receiver
import Projection.Proofs.Lowering.Restored
import Projection.Proofs.Token.Spaced
import Projection.Proofs.Cursor.Ends
