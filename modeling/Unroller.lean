import Unroller.BitSet
import Unroller.CheckedInt
import Unroller.FunctionHash
import Unroller.Text.Dot
import Unroller.Text.Blank
import Unroller.Decimal.Layout
import Unroller.Decimal.Elapsed
import Unroller.Graph.Builder
import Unroller.Graph.Dump
import Unroller.Execution.Machine
import Unroller.Schedule
import Unroller.Proofs.Arrays
import Unroller.Proofs.BitSet.History
import Unroller.Proofs.Cloning.Copies
import Unroller.Proofs.Cloning.Region
import Unroller.Proofs.Graph.Building
import Unroller.Proofs.Loop.Cloneable
import Unroller.Proofs.Loop.Preservation
import Unroller.Proofs.Phase.Rounds
import Unroller.Proofs.Digraph.LoopForest
import Unroller.Proofs.Execution.Safety
import Unroller.Proofs.Loop.Lockstep
import Unroller.Proofs.Graph.NodeCopy
import Unroller.Proofs.Graph.Ownership
import Unroller.Proofs.Cloning.Isomorphism
import Unroller.Proofs.Schedule.Isolation
import Unroller.Proofs.Phase.Freshness
import Unroller.Proofs.Phase.SingleOwner
import Unroller.Proofs.Loop.Ways
import Unroller.Proofs.Phase.Verdicts
import Unroller.Proofs.Loop.Flattening
import Unroller.Proofs.Loop.Rolling
import Unroller.Proofs.Phase.Candidates
import Unroller.Proofs.Cloning.Feasibility
import Unroller.Proofs.Cloning.Generations
import Unroller.Proofs.Loop.Writers
import Unroller.Proofs.Loop.BodyScan
import Unroller.Proofs.Graph.RebuiltLocals
import Unroller.Proofs.Graph.PhiLinks
import Unroller.Proofs.Graph.ThreadedValid
import Unroller.Proofs.Execution.Budget
import Unroller.Proofs.Execution.Rewiring
import Unroller.Proofs.Phase.Edits
import Unroller.Proofs.Digraph.LeaveOrder
import Unroller.Proofs.Execution.Replay
import Unroller.Proofs.Graph.Pruning
import Unroller.Proofs.Phase.Untouched
import Unroller.Proofs.Digraph.EntryOrder
import Unroller.Proofs.Text.Dot
import Unroller.Proofs.AllowList
import Unroller.Proofs.Digraph.Evaluation
import Unroller.Proofs.Phase.Validity
