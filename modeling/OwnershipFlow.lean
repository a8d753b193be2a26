import OwnershipFlow.Config.Text
import OwnershipFlow.Diagnostic
import OwnershipFlow.Permission.Listing
import OwnershipFlow.Program.Text
import OwnershipFlow.Proofs.Acceptance
import OwnershipFlow.Proofs.Boundary
import OwnershipFlow.Proofs.Climbing
import OwnershipFlow.Proofs.EntryScope
import OwnershipFlow.Proofs.FlatOrigins
import OwnershipFlow.Proofs.Forest
import OwnershipFlow.Proofs.Freshness
import OwnershipFlow.Proofs.GraphImage
import OwnershipFlow.Proofs.GreatestSolution
import OwnershipFlow.Proofs.ParallelCalls
import OwnershipFlow.Proofs.Predecessors
import OwnershipFlow.Proofs.Pruning
import OwnershipFlow.Proofs.Reducibility
import OwnershipFlow.Proofs.Repetition
import OwnershipFlow.Proofs.Resolution
import OwnershipFlow.Proofs.Simulation
import OwnershipFlow.Proofs.Traversals
