import Statute.Proofs.Explain
import Statute.Proofs.Search.Completeness
import Statute.Proofs.Verify.DepthLimit
import Statute.Proofs.Verify.Validity
import Statute.Verify.Summary
import Statute.Proofs.Lowering.Naming
import Statute.Proofs.Lowering.Progress
import Statute.Proofs.Lowering.Bounds
import Statute.Proofs.Conflict.Exactness
import Statute.Proofs.Check.Literals
import Statute.Proofs.Check.NonEmpty
import Statute.Proofs.Check.Loops
import Statute.Proofs.Check.Restoring
import Statute.Proofs.Types.Order
import Statute.Proofs.Lowering.Constants
import Statute.Proofs.Lowering.Windows
import Statute.Proofs.Logic.Models
import Statute.Proofs.Citation
import Statute.Proofs.Search.Slots
import Statute.Proofs.Search.Window
