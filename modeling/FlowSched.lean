import FlowSched.Main
import FlowSched.Audit
import FlowSched.Report.Gantt
import FlowSched.Report.Graph
import FlowSched.Proofs.Span
import FlowSched.Proofs.Reconcile
import FlowSched.Proofs.Audit
import FlowSched.Proofs.Idempotent
import FlowSched.Proofs.Checked
import FlowSched.Proofs.Building
import FlowSched.Proofs.Session
import FlowSched.Proofs.Dispatch
import FlowSched.Proofs.Idle
import FlowSched.Proofs.Cost
import FlowSched.Proofs.Credit
import FlowSched.Proofs.Execution.Invariant
import FlowSched.Proofs.Execution.Start
import FlowSched.Proofs.Execution.Complete
import FlowSched.Proofs.Execution.Binding
import FlowSched.Proofs.Execution.Run
import FlowSched.Proofs.Execution.Release
import FlowSched.Proofs.Planning.Frame
import FlowSched.Proofs.Execution.Schedule
import FlowSched.Proofs.Run
import FlowSched.Proofs.Planning.Rank
import FlowSched.Proofs.Planning.Allocation
import FlowSched.Proofs.Planning.Path
import FlowSched.Proofs.Planning.Sketch
import FlowSched.Proofs.Planning.Estimate
import FlowSched.Proofs.Planning.Lineup
import FlowSched.Proofs.Planning.Planner
import FlowSched.Proofs.Return
import FlowSched.Proofs.Execution.Punctual
import FlowSched.Proofs.Arrival
import FlowSched.Proofs.Execution.Load
import FlowSched.Proofs.Timeline
import FlowSched.Proofs.Planning.Offer
import FlowSched.Proofs.Planning.Longest
import FlowSched.Proofs.Planning.Consistent
import FlowSched.Proofs.Planning.Instants
import FlowSched.Proofs.Pair
import FlowSched.Proofs.Blind
import FlowSched.Proofs.Planning.Blind
import FlowSched.Proofs.Execution.Blind
import FlowSched.Proofs.Again
import FlowSched.Proofs.Planning.Recorded
import FlowSched.Proofs.Execution.Course
import FlowSched.Proofs.Follow
import FlowSched.Proofs.Trace
import FlowSched.Proofs.Chain
import FlowSched.Proofs.SingleVm
import FlowSched.Proofs.Planning.Bound
import FlowSched.Proofs.Delay
import FlowSched.Proofs.Planning.Later
import FlowSched.Proofs.Planning.LaterSketch
import FlowSched.Proofs.Planning.Arrangement
import FlowSched.Proofs.Planning.Floor
import FlowSched.Proofs.Edge
import FlowSched.Proofs.Pushing
import FlowSched.Proofs.Planning.Rehearsal
import FlowSched.Proofs.Planning.ByRank
import FlowSched.Proofs.Planning.Greedy
import FlowSched.Proofs.Planning.Replan
import FlowSched.Proofs.Acceptance
import FlowSched.Proofs.Relisted
import FlowSched.Proofs.Planning.Relisted
import FlowSched.Proofs.Depth
import FlowSched.Proofs.Draw
import FlowSched.Proofs.Arcs
import FlowSched.Proofs.Layered
import FlowSched.Proofs.InTurn
import FlowSched.Proofs.Fitting
import FlowSched.Proofs.Ordered
import FlowSched.Proofs.Selection
import FlowSched.Proofs.Woven
import FlowSched.Proofs.Planning.Enumeration
import FlowSched.Proofs.Planning.Costliest
import FlowSched.Proofs.Planning.Diary
import FlowSched.Proofs.Planning.Ancestors
import FlowSched.Proofs.Planning.Ancestry
import FlowSched.Proofs.Lineage
