import SsaFusion.IR.Cursor
import SsaFusion.Machine.Run
import SsaFusion.Pipeline.Optimize
import SsaFusion.Proofs.Flow.Graph
import SsaFusion.Proofs.Data.Table
import SsaFusion.Proofs.Flow.Dominance
import SsaFusion.Proofs.Flow.Tour
import SsaFusion.Proofs.Flow.Immediate
import SsaFusion.Proofs.Flow.DomTree
import SsaFusion.Proofs.IR.Sites
import SsaFusion.Proofs.Machine.Safety
import SsaFusion.Proofs.Flow.Loop
import SsaFusion.Proofs.Fusion.Contents
import SsaFusion.Proofs.Fusion.Homes
import SsaFusion.Proofs.Fusion.Placement
import SsaFusion.Proofs.Fusion.Reads
import SsaFusion.Proofs.Fusion.Sources
import SsaFusion.Proofs.Fusion.Validity
import SsaFusion.Proofs.Fusion.Rounds
import SsaFusion.Proofs.Flow.Forest
import SsaFusion.Proofs.Pipeline.Validity
import SsaFusion.Proofs.Machine.Frame
import SsaFusion.Proofs.Sweep.Runs
import SsaFusion.Proofs.Machine.Moments
import SsaFusion.Proofs.Symbolic.Meaning
import SsaFusion.Proofs.Symbolic.Description
import SsaFusion.Proofs.Symbolic.Evolution
import SsaFusion.Proofs.Fusion.Effects
import SsaFusion.Proofs.Flow.Nesting
import SsaFusion.Proofs.Flow.Postorder
import SsaFusion.Proofs.Symbolic.Memo
import SsaFusion.Proofs.Flow.PostDominance
import SsaFusion.Proofs.Pipeline.Report
import SsaFusion.Proofs.Symbolic.TripCount
import SsaFusion.Proofs.Fusion.Dependence
import SsaFusion.Proofs.Fusion.Lockstep
import SsaFusion.Proofs.Fusion.Scalars
import SsaFusion.Proofs.Fusion.Recursions
import SsaFusion.Proofs.Symbolic.Exactness
import SsaFusion.Proofs.Symbolic.Order
import SsaFusion.Proofs.Symbolic.Affine
import SsaFusion.Proofs.Sweep.Fixpoint
import SsaFusion.Proofs.Machine.Budget
import SsaFusion.Proofs.Symbolic.Linear
import SsaFusion.Proofs.Symbolic.Canonical
import SsaFusion.Proofs.Symbolic.Laws
import SsaFusion.Proofs.Sweep.Faults
import SsaFusion.Proofs.Fusion.Preservation
