import Amend.History
import Amend.Sharing
import Amend.Value.Members
import Amend.Proofs.Children
import Amend.Proofs.Carry
import Amend.Proofs.Descent
import Amend.Proofs.Actions
import Amend.Proofs.Copies
import Amend.Proofs.Kinds
import Amend.Proofs.Frozen
import Amend.Proofs.Meaning
import Amend.Proofs.Paths
import Amend.Proofs.Leaves
import Amend.Proofs.Along
import Amend.Proofs.Lens
import Amend.Proofs.Idle
import Amend.Proofs.Independent
import Amend.Proofs.Plain
import Amend.Proofs.Simulation
import Amend.Proofs.Snapshots
import Amend.Proofs.KeyOrder
import Amend.Proofs.RoundTrip
import Amend.Proofs.Rerun
import Amend.Proofs.Visits
import Amend.Proofs.Matching
import Amend.Proofs.PathEnd
import Amend.Proofs.Obstacles
import Amend.Proofs.Fusion
import Amend.Proofs.Reworded
import Amend.Proofs.Rebuilding
import Amend.Proofs.Additions
import Amend.Proofs.Opened
import Amend.Proofs.Accepted
import Amend.Proofs.Settled
import Amend.Proofs.Alike
import Amend.Proofs.Heap
import Amend.Proofs.Points
import Amend.Proofs.Sorted
import Amend.Proofs.Thawed
import Amend.Proofs.Allocation
import Amend.Proofs.Isolation
import Amend.Proofs.Sessions
