import Patchbay.Main
import Patchbay.Graph.Report
import Patchbay.Storage
import Patchbay.Proofs.Coherence
import Patchbay.Proofs.Convergence
import Patchbay.Proofs.Matching
import Patchbay.Proofs.Aftermath
import Patchbay.Proofs.Rebuilding
import Patchbay.Proofs.Reloading
import Patchbay.Proofs.Silence
import Patchbay.Proofs.Custody
import Patchbay.Proofs.Ancestry
import Patchbay.Proofs.Truncation
import Patchbay.Proofs.Repetition
import Patchbay.Proofs.EdgeSets
import Patchbay.Proofs.Atomicity
import Patchbay.Proofs.Refusals
import Patchbay.Proofs.Canonical
import Patchbay.Proofs.Tags
import Patchbay.Proofs.SavedTexts
import Patchbay.Proofs.Faults
import Patchbay.Proofs.Interior
import Patchbay.Proofs.Upstream
import Patchbay.Proofs.Expiry
import Patchbay.Proofs.CommandRuns
import Patchbay.Proofs.Integers
import Patchbay.Proofs.Routing
import Patchbay.Proofs.Totals
import Patchbay.Proofs.FanOut
import Patchbay.Proofs.Locality
import Patchbay.Proofs.Feeders
import Patchbay.Proofs.PartialOrder
import Patchbay.Proofs.DocumentVariants
