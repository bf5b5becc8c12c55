import Porridge.Lib.Dict
import Porridge.Lib.Fold
import Porridge.Lib.Machine
import Porridge.Lib.Worklist
import Porridge.Lib.Index
import Porridge.Lib.BitMatrix
import Porridge.Lib.Branching
import Porridge.Lib.Others
import Porridge.Component
import Porridge.World.Presence
import Porridge.World.Basic
import Porridge.World.Effects
import Porridge.World.Operations
import Porridge.World.Outputs
import Porridge.Commands
import Porridge.World.Frame
import Porridge.World.Ownership
import Porridge.World.Retire
import Porridge.World.Reachable
import Porridge.World.Grows
import Porridge.World.Keeps
import Porridge.Memo
import Porridge.System
import Porridge.State
import Porridge.Commit
import Porridge.Retirement
import Porridge.Commit.Removals
import Porridge.Commit.Treatment
import Porridge.World.Reach
import Porridge.Evaluation
import Porridge.Evaluation.Cascade
import Porridge.Emission
import Porridge.Emission.Live
import Porridge.Healing
import Porridge.Cleanup
import Porridge.Engine
import Porridge.Engine.Support
import Porridge.Engine.Liveness
import Porridge.Epoch
import Porridge.Protocol
import Porridge.Protocol.Control
import Porridge.Protocol.Runner
import Porridge.Protocol.Tables
import Porridge.Protocol.Memo
import Porridge.Protocol.Inputs
import Porridge.Protocol.Snapshots
import Porridge.World.Exact
import Porridge.World.Relationships
import Porridge.World.Inverses
import Porridge.World.Coherence
import Porridge.World.Replacement
import Porridge.Commit.Replacement
import Porridge.Protocol.Moves
import Porridge.Protocol.Conservation
import Porridge.Protocol.Generations
import Porridge.Protocol.Driver
import Porridge.Protocol.Preemption
import Porridge.Query.Enumeration
import Porridge.Query.Part
import Porridge.Query.Filter
import Porridge.Query.Shape
import Porridge.Query.Param
import Porridge.Query.Tuple
import Porridge.Query.Product
import Porridge.Query.Planned
import Porridge.Query.Outer
import Porridge.Query.RowSet
import Porridge.Query.Locality
import Porridge.Query.Chains
import Porridge.Query.Delta
import Porridge.World.Teardown
import Porridge.Cleanup.Losses
import Porridge.Cleanup.Settled
import Porridge.Lib.Arena
import Porridge.Reservations
import Porridge.Reservations.Tallies
import Porridge.Reservations.Ledger
import Porridge.Query.Access
import Porridge.Runnable
import Porridge.PhaseLoop
import Porridge.PhaseLoop.Admission
import Porridge.Execution
import Porridge.Execution.Exclusive
import Porridge.Commit.Absorption
import Porridge.World.Later
import Porridge.World.Watermarks
import Porridge.World.Rebound
import Porridge.Engine.World
import Porridge.Query.Extent
import Porridge.Query.WholeStore
import Porridge.World.Markers
import Porridge.World.Registry
import Porridge.World.Claims
import Porridge.Intake
import Porridge.Intake.Registry
import Porridge.Intake.Routing
import Porridge.Query.Observation
import Porridge.Engine.Removals
import Porridge.World.Showing
import Porridge.Query.Absence
import Porridge.Query.Absence.Staged
import Porridge.Query.Absence.Exact
import Porridge.Deferral
import Porridge.Deferral.Waiting
import Porridge.World.Buffers
import Porridge.World.Dormant
import Porridge.World.Landing
import Porridge.World.Slots
import Porridge.Deferral.Discarded
import Porridge.Deferral.Reinstated
import Porridge.World.Allocation
import Porridge.Query.Candidates
import Porridge.World.Buckets
import Porridge.Query.Pairing
import Porridge.Query.Prepared
import Porridge.Query.Pairs
import Porridge.Query.Bindings
import Porridge.Query.View
import Porridge.Query.External
import Porridge.World.Stillness
import Porridge.Query.Fetching
import Porridge.World.Logging
import Porridge.Planning.Gating
import Porridge.SnapshotCache
import Porridge.Protocol.Onward
import Porridge.Healing.Fresh
import Porridge.Protocol.Closing
import Porridge.Execution.Healed
import Porridge.World.Stores
import Porridge.World.Storage
import Porridge.World.StorageRuns
import Porridge.Query.Storage
import Porridge.Reservations.Oracle
import Porridge.World.Anchoring
import Porridge.World.Traces
import Porridge.World.Anchors
import Porridge.Execution.Boundary
import Porridge.Protocol.Freeze
import Porridge.Query.Aliasing
import Porridge.Execution.Accounting
import Porridge.Execution.Reconciled
import Porridge.World.Sparing
import Porridge.World.Disturbed
import Porridge.Commit.Disturbed
import Porridge.Commit.Arrival
import Porridge.Reservations.Numbering
import Porridge.Query.Scanning
import Porridge.Commands.Arena
import Porridge.Commands.Queues
import Porridge.Lib.Codes
import Porridge.Query.Identities
import Porridge.Commit.Closure
import Porridge.Cleanup.Taking
import Porridge.Query.ChangedSince
import Porridge.Query.Preparation
import Porridge.Spawns.Identity
import Porridge.World.Emitted
import Porridge.Engine.Custody
import Porridge.World.Audible
import Porridge.PhaseLoop.Quiet
import Porridge.Execution.Quiescence
import Porridge.Waiters.Window
import Porridge.World.Repeated
import Porridge.Commit.Restated
import Porridge.Dispatch.Refinement
import Porridge.Dispatch.Progress
import Porridge.Query.Agreement
import Porridge.Cleanup.Spared
import Porridge.Commit.Losers
import Porridge.World.Fate
