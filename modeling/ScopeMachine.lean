import ScopeMachine.Arena
import ScopeMachine.Backend
import ScopeMachine.Backtrace
import ScopeMachine.BuiltinType
import ScopeMachine.Cell
import ScopeMachine.Decimal.Reader
import ScopeMachine.Decimal.Shortest
import ScopeMachine.Decimal.Style
import ScopeMachine.Evaluation
import ScopeMachine.Expr
import ScopeMachine.Fault
import ScopeMachine.Function
import ScopeMachine.Heap.Basic
import ScopeMachine.Heap.Members
import ScopeMachine.Heap.Walk
import ScopeMachine.Host
import ScopeMachine.Interner
import ScopeMachine.Limits
import ScopeMachine.Literal
import ScopeMachine.Machine.Arguments
import ScopeMachine.Machine.Basic
import ScopeMachine.Machine.Calls
import ScopeMachine.Machine.Conversions
import ScopeMachine.Machine.FrameStack
import ScopeMachine.Machine.Global
import ScopeMachine.Machine.Holders
import ScopeMachine.Machine.Storage
import ScopeMachine.Memory
import ScopeMachine.Observation
import ScopeMachine.Permission
import ScopeMachine.Probe
import ScopeMachine.Probe.Basic
import ScopeMachine.Probe.Failures
import ScopeMachine.Probe.Frames
import ScopeMachine.Probe.Functions
import ScopeMachine.Probe.References
import ScopeMachine.Probe.Scopes
import ScopeMachine.Probe.Tables
import ScopeMachine.Probe.Values
import ScopeMachine.Proofs.Calls.ArgumentSteps
import ScopeMachine.Proofs.Calls.Binding
import ScopeMachine.Proofs.Calls.Constructing
import ScopeMachine.Proofs.Calls.Entering
import ScopeMachine.Proofs.Calls.Forms
import ScopeMachine.Proofs.Calls.Layouts
import ScopeMachine.Proofs.Calls.Mannerly
import ScopeMachine.Proofs.Calls.Nesting
import ScopeMachine.Proofs.Calls.Parameters
import ScopeMachine.Proofs.Calls.Returning
import ScopeMachine.Proofs.Calls.Seats
import ScopeMachine.Proofs.Calls.Trailing
import ScopeMachine.Proofs.Calls.WriteOnce
import ScopeMachine.Proofs.Construction.Chains
import ScopeMachine.Proofs.Construction.Enumerating
import ScopeMachine.Proofs.Construction.Instances
import ScopeMachine.Proofs.Construction.Journal
import ScopeMachine.Proofs.Construction.Making
import ScopeMachine.Proofs.Construction.Overriding
import ScopeMachine.Proofs.Construction.Privacy
import ScopeMachine.Proofs.Construction.ProtocolOrder
import ScopeMachine.Proofs.Construction.Redeclaring
import ScopeMachine.Proofs.Construction.Statics
import ScopeMachine.Proofs.Construction.Targets
import ScopeMachine.Proofs.Evaluation.Composed
import ScopeMachine.Proofs.Evaluation.Constants
import ScopeMachine.Proofs.Evaluation.Exhaustion
import ScopeMachine.Proofs.Evaluation.Handling
import ScopeMachine.Proofs.Evaluation.Outlasting
import ScopeMachine.Proofs.Evaluation.Regimes
import ScopeMachine.Proofs.Evaluation.ScriptSteps
import ScopeMachine.Proofs.Evaluation.Sealing
import ScopeMachine.Proofs.Evaluation.Snapshots
import ScopeMachine.Proofs.Evaluation.Sustaining
import ScopeMachine.Proofs.Frames.Balance
import ScopeMachine.Proofs.Frames.Deeds
import ScopeMachine.Proofs.Frames.Escaping
import ScopeMachine.Proofs.Frames.Freeing
import ScopeMachine.Proofs.Frames.Fresh
import ScopeMachine.Proofs.Frames.Held
import ScopeMachine.Proofs.Frames.Integrity
import ScopeMachine.Proofs.Frames.Ledger
import ScopeMachine.Proofs.Frames.Moves
import ScopeMachine.Proofs.Frames.OpenAndClose
import ScopeMachine.Proofs.Frames.Pushing
import ScopeMachine.Proofs.Frames.Regions
import ScopeMachine.Proofs.Frames.Routine
import ScopeMachine.Proofs.Frames.ScopesInUse
import ScopeMachine.Proofs.Frames.Settled
import ScopeMachine.Proofs.Frames.Steady
import ScopeMachine.Proofs.Frames.Work
import ScopeMachine.Proofs.Frames.Workspace
import ScopeMachine.Proofs.Globals.Immune
import ScopeMachine.Proofs.Globals.Installing
import ScopeMachine.Proofs.Globals.Safe
import ScopeMachine.Proofs.Globals.SafeCalls
import ScopeMachine.Proofs.Globals.SafeEvaluation
import ScopeMachine.Proofs.Globals.Unaltered
import ScopeMachine.Proofs.Liveness.Clients
import ScopeMachine.Proofs.Liveness.Discretion
import ScopeMachine.Proofs.Liveness.Evolution
import ScopeMachine.Proofs.Liveness.Grounds
import ScopeMachine.Proofs.Liveness.Growth
import ScopeMachine.Proofs.Liveness.Guarded
import ScopeMachine.Proofs.Liveness.Heaps
import ScopeMachine.Proofs.Liveness.Leading
import ScopeMachine.Proofs.Liveness.Lost
import ScopeMachine.Proofs.Liveness.Pooling
import ScopeMachine.Proofs.Liveness.ScopeExtents
import ScopeMachine.Proofs.Liveness.Secrets
import ScopeMachine.Proofs.Liveness.Ties
import ScopeMachine.Proofs.Liveness.WorkOfPrograms
import ScopeMachine.Proofs.Names.Interning
import ScopeMachine.Proofs.Names.Shapes
import ScopeMachine.Proofs.Placement.Accords
import ScopeMachine.Proofs.Placement.Agreeing
import ScopeMachine.Proofs.Placement.AgreementChanges
import ScopeMachine.Proofs.Placement.Allocation
import ScopeMachine.Proofs.Placement.ArgumentActions
import ScopeMachine.Proofs.Placement.ArgumentPairs
import ScopeMachine.Proofs.Placement.ArgumentTables
import ScopeMachine.Proofs.Placement.Arrangement
import ScopeMachine.Proofs.Placement.Building
import ScopeMachine.Proofs.Placement.CallScopes
import ScopeMachine.Proofs.Placement.Declaring
import ScopeMachine.Proofs.Placement.Expressions
import ScopeMachine.Proofs.Placement.Finding
import ScopeMachine.Proofs.Placement.Framing
import ScopeMachine.Proofs.Placement.Housing
import ScopeMachine.Proofs.Placement.Links
import ScopeMachine.Proofs.Placement.Mirroring
import ScopeMachine.Proofs.Placement.Opening
import ScopeMachine.Proofs.Placement.Outcomes
import ScopeMachine.Proofs.Placement.Performing
import ScopeMachine.Proofs.Placement.PlainActions
import ScopeMachine.Proofs.Placement.Protocols
import ScopeMachine.Proofs.Placement.Releasing
import ScopeMachine.Proofs.Placement.Resuming
import ScopeMachine.Proofs.Placement.SameView
import ScopeMachine.Proofs.Placement.Scoping
import ScopeMachine.Proofs.Placement.Settling
import ScopeMachine.Proofs.Placement.Skipping
import ScopeMachine.Proofs.Placement.Stepping
import ScopeMachine.Proofs.Placement.Versions
import ScopeMachine.Proofs.Placement.Walking
import ScopeMachine.Proofs.Placement.Wording
import ScopeMachine.Proofs.Running
import ScopeMachine.Proofs.Storage.Aloof
import ScopeMachine.Proofs.Storage.Bounds
import ScopeMachine.Proofs.Storage.Detached
import ScopeMachine.Proofs.Storage.Elsewhere
import ScopeMachine.Proofs.Storage.Filling
import ScopeMachine.Proofs.Storage.HeldCells
import ScopeMachine.Proofs.Storage.HeldOnHeap
import ScopeMachine.Proofs.Storage.InPlace
import ScopeMachine.Proofs.Storage.Landing
import ScopeMachine.Proofs.Storage.Laws
import ScopeMachine.Proofs.Storage.Layout
import ScopeMachine.Proofs.Storage.MemberBounds
import ScopeMachine.Proofs.Storage.Naming
import ScopeMachine.Proofs.Storage.Retaining
import ScopeMachine.Proofs.Storage.ScopesById
import ScopeMachine.Proofs.Storage.SingleTable
import ScopeMachine.Proofs.Storage.Sparing
import ScopeMachine.Proofs.Storage.Stores
import ScopeMachine.Proofs.TableTasks.Answers
import ScopeMachine.Proofs.TableTasks.CellTasks
import ScopeMachine.Proofs.TableTasks.Representation
import ScopeMachine.Proofs.TableTasks.SlotChanges
import ScopeMachine.Proofs.TableTasks.TaskModel
import ScopeMachine.Proofs.Values.Bisimulation
import ScopeMachine.Proofs.Values.Description
import ScopeMachine.Scope
import ScopeMachine.Script
import ScopeMachine.Session
import ScopeMachine.Shape
import ScopeMachine.Snapshot
import ScopeMachine.Table
import ScopeMachine.Text.Blank
import ScopeMachine.Text.Mention
import ScopeMachine.Text.Quoted
import ScopeMachine.Text.Record
import ScopeMachine.Text.Unprintable
import ScopeMachine.Value.Basic
import ScopeMachine.Value.Equality
import ScopeMachine.Value.Inspection
import ScopeMachine.Value.Protocol
import ScopeMachine.Value.Rendering

