import Mosaic.Plane
import Mosaic.Name
import Mosaic.Graph.Heap
import Mosaic.Graph.Workbench
import Mosaic.Failure
import Mosaic.Object
import Mosaic.Store.Copy
import Mosaic.Store.Display
import Mosaic.MemoKey
import Mosaic.Primitive.Apply
import Mosaic.Scope
import Mosaic.Memo
import Mosaic.Expr.Compile
import Mosaic.Machine.Run
import Mosaic.Session
import Mosaic.Scope.Workbench
import Mosaic.Proofs.Graph.Walk
import Mosaic.Proofs.Steps
import Mosaic.Proofs.Store.Actions
import Mosaic.Proofs.Store.Reads
import Mosaic.Proofs.Store.Confined
import Mosaic.Proofs.Store.ConfinedCopy
import Mosaic.Proofs.Store.ConfinedFields
import Mosaic.Proofs.Balance.Flow
import Mosaic.Proofs.Balance.Actions
import Mosaic.Proofs.Balance.Operations
import Mosaic.Proofs.Balance.Run
import Mosaic.Proofs.Direct.Eval
import Mosaic.Proofs.Direct.Stackless
import Mosaic.Proofs.Direct.Simulation
import Mosaic.Proofs.Direct.Operations
import Mosaic.Proofs.Direct.Refinement
import Mosaic.Proofs.Cadence.Fragment
import Mosaic.Proofs.Cadence.Like
import Mosaic.Proofs.Cadence.Twin
import Mosaic.Proofs.Cadence.Logic
import Mosaic.Proofs.Cadence.Counted
import Mosaic.Proofs.Cadence.Copied
import Mosaic.Proofs.Cadence.Copy
import Mosaic.Proofs.Cadence.Display
import Mosaic.Proofs.Cadence.Isomorphism
import Mosaic.Proofs.Cadence.Primitives
import Mosaic.Proofs.Cadence.Plain
import Mosaic.Proofs.Cadence.Abreast
import Mosaic.Proofs.Cadence.Operations
import Mosaic.Proofs.Cadence.Run
import Mosaic.Graph.Tables
import Mosaic.Graph.Client
import Mosaic.Proofs.Graph.Visit
import Mosaic.Proofs.Graph.Tables
import Mosaic.Proofs.Graph.Collect
import Mosaic.Proofs.Graph.Client
import Mosaic.Graph.Keeper
import Mosaic.Proofs.Graph.Keeper
import Mosaic.Graph.Ledger
import Mosaic.Proofs.Graph.Ledger
import Mosaic.Proofs.Graph.Tally
import Mosaic.Proofs.Graph.Accounts
import Mosaic.Proofs.Decimal.Reading
import Mosaic.Proofs.Decimal.Shortest
import Mosaic.Proofs.Decimal.Exact
import Mosaic.Proofs.MemoKey
import Mosaic.Proofs.Published.Spares
import Mosaic.Proofs.Published.Primitives
import Mosaic.Proofs.Published.Actions
import Mosaic.Proofs.Published.Operations
import Mosaic.Proofs.Published.Writes
import Mosaic.Proofs.Published.Run
import Mosaic.Proofs.Published.Completed
import Mosaic.Proofs.Guise.Lines
import Mosaic.Proofs.Guise.Store
import Mosaic.Proofs.Guise.Machine
import Mosaic.Proofs.Guise.Operations
import Mosaic.Proofs.Guise.Run
import Mosaic.Proofs.Scope.Restore
import Mosaic.Proofs.Machine.Moves
import Mosaic.Proofs.Limits
import Mosaic.Proofs.Located
import Mosaic.Proofs.Machine.Step
import Mosaic.Proofs.Isolation.Body
import Mosaic.Proofs.Isolation.Entry
import Mosaic.Proofs.Isolation.Callers
import Mosaic.Proofs.Globals.Tame
import Mosaic.Proofs.Globals.Surface
import Mosaic.Proofs.Globals.Failed
import Mosaic.Proofs.Globals.Shaded
import Mosaic.Proofs.Globals.Succeeded
import Mosaic.Proofs.Scope.Edits
import Mosaic.Proofs.Scope.Lexical
import Mosaic.Proofs.Backtrace.Actions
import Mosaic.Proofs.Backtrace.Labels
import Mosaic.Proofs.Backtrace.Calls
import Mosaic.Proofs.Machine.Logic
import Mosaic.Proofs.Leftover.Frugal
import Mosaic.Proofs.Leftover.Inward
import Mosaic.Proofs.Leftover.Run
import Mosaic.Proofs.Leftover.Step
import Mosaic.Proofs.Fields.Assignment
import Mosaic.Proofs.Comprehension.Body
import Mosaic.Proofs.Comprehension.Map
import Mosaic.Proofs.Dependencies.Demands
import Mosaic.Proofs.Dependencies.Sighted
import Mosaic.Proofs.Dependencies.Footing
import Mosaic.Proofs.Dependencies.Moored
import Mosaic.Proofs.Dependencies.Follow
import Mosaic.Proofs.Dependencies.Operations
import Mosaic.Proofs.Dependencies.Standing
import Mosaic.Proofs.Dependencies.Lockstep
import Mosaic.Proofs.Dependencies.Run
import Mosaic.Proofs.Blocks.Sparing
import Mosaic.Proofs.Blocks.Housed
import Mosaic.Proofs.Blocks.Sheltered
import Mosaic.Proofs.Blocks.Recursive
import Mosaic.Proofs.Calls
import Mosaic.Proofs.Tiles.Making
import Mosaic.Proofs.Tiles.Copying
import Mosaic.Proofs.Tiles.Patches
import Mosaic.Proofs.Tiles.Operations
import Mosaic.Proofs.Tiles.Edges
import Mosaic.Proofs.Tiles.Run
import Mosaic.Proofs.Tiles.Members
import Mosaic.Proofs.Lines.Failed
import Mosaic.Proofs.Plane.Packing
import Mosaic.Proofs.Plane.Quotient
import Mosaic.Proofs.Plane.Grid
import Mosaic.Proofs.Tiles.Locations
import Mosaic.Proofs.Tiles.Orphans
import Mosaic.Proofs.Tiles.Replicas
import Mosaic.Proofs.Tiles.Patchwork
import Mosaic.Proofs.Tiles.Sharing
