import StencilPlan.Arith.Checked
import StencilPlan.Arith.Rounding
import StencilPlan.Dim.Catalog
import StencilPlan.Dim.Codec
import StencilPlan.Dim.Kind
import StencilPlan.Dim.Order
import StencilPlan.Dim.RowMajor
import StencilPlan.Dim.Vec
import StencilPlan.Error
import StencilPlan.Halo.Buffer
import StencilPlan.Halo.Crew
import StencilPlan.Halo.Exchange
import StencilPlan.Halo.Slab
import StencilPlan.Halo.Table
import StencilPlan.Journal
import StencilPlan.Json.Basic
import StencilPlan.Json.Codec
import StencilPlan.Json.Number
import StencilPlan.Json.Reader
import StencilPlan.Json.Token
import StencilPlan.Memory.Heap
import StencilPlan.Memory.Policy
import StencilPlan.Network.Replay
import StencilPlan.Network.Solo
import StencilPlan.Network.Transport
import StencilPlan.Network.Universe
import StencilPlan.Number.Binary64
import StencilPlan.Number.Shortest
import StencilPlan.Proofs.Dim.Catalog
import StencilPlan.Proofs.Dim.RowMajor
import StencilPlan.Proofs.Dim.Vec
import StencilPlan.Proofs.Halo.Geometry
import StencilPlan.Proofs.Halo.Layout
import StencilPlan.Proofs.Halo.Outline
import StencilPlan.Proofs.Halo.Pairing
import StencilPlan.Proofs.Halo.Storage
import StencilPlan.Proofs.Memory.Heap
import StencilPlan.Proofs.Network.Universe
import StencilPlan.Proofs.Rank.Placement
import StencilPlan.Proofs.Rank.Topology
import StencilPlan.Proofs.Settings.Reachable
import StencilPlan.Proofs.Yields
import StencilPlan.Rank.Factors
import StencilPlan.Rank.Grid
import StencilPlan.Rank.Placement
import StencilPlan.Rank.Topology
import StencilPlan.Settings.Basic
import StencilPlan.Settings.Codec
import StencilPlan.Settings.Option
import StencilPlan.Solution.Basic
import StencilPlan.Solution.Cohort
import StencilPlan.Solution.Prepare
import StencilPlan.Solution.Quantity
import StencilPlan.Solution.Run
import StencilPlan.Solution.Tuning
import StencilPlan.Stencil.Basic
import StencilPlan.Stencil.Codec
import StencilPlan.Text.Blank
import StencilPlan.Text.Numeral
import StencilPlan.Text.Printable
import StencilPlan.Text.Quoted
import StencilPlan.Threads.Layout
import StencilPlan.Threads.Nest
import StencilPlan.Threads.Program
import StencilPlan.Tiling.Binding
import StencilPlan.Tiling.Level
import StencilPlan.Tiling.Plan
import StencilPlan.Tiling.Resolution
import StencilPlan.Tiling.Subsets
import StencilPlan.Variable.Codec
import StencilPlan.Variable.Shape
import StencilPlan.Proofs.Arith.Rounding
import StencilPlan.Proofs.Halo.Course
import StencilPlan.Proofs.Halo.Handshake
import StencilPlan.Proofs.Halo.Ledger
import StencilPlan.Proofs.Halo.Matching
import StencilPlan.Proofs.Halo.Stock
import StencilPlan.Proofs.Solution.Muster
import StencilPlan.Proofs.Stencil.Built
import StencilPlan.Proofs.Halo.Shell
import StencilPlan.Proofs.Solution.Sending
import StencilPlan.Proofs.Rank.Agreement
import StencilPlan.Proofs.Halo.Progress
import StencilPlan.Proofs.Solution.Rounds
import StencilPlan.Proofs.Network.Lawful
import StencilPlan.Proofs.Rank.Neighborhood
import StencilPlan.Proofs.Halo.Aliasing
import StencilPlan.Proofs.Halo.Refusal
import StencilPlan.Proofs.Solution.Deadlock
import StencilPlan.Proofs.Solution.Mismatch
import StencilPlan.Proofs.Settings.Refusal
import StencilPlan.Proofs.Solution.Lifecycle
import StencilPlan.Proofs.Solution.Tags
import StencilPlan.Proofs.Tiling.SplitDim
import StencilPlan.Proofs.Tiling.Overflow
import StencilPlan.Proofs.Solution.Journal
import StencilPlan.Proofs.Tiling.Covering
import StencilPlan.Proofs.Tiling.Scans
import StencilPlan.Proofs.Settings.Persistence
import StencilPlan.Proofs.Tiling.PerRank
import StencilPlan.Proofs.Settings.Decoding
import StencilPlan.Proofs.Dim.Numbering
import StencilPlan.Proofs.Dim.Sweep
import StencilPlan.Proofs.Rank.Filling
import StencilPlan.Proofs.Variable.Storage
import StencilPlan.Proofs.Rank.Offsets
import StencilPlan.Proofs.Rank.Lookup
import StencilPlan.Proofs.Tiling.Steps
import StencilPlan.Proofs.Halo.Alignment
import StencilPlan.Proofs.Stencil.Widths
import StencilPlan.Proofs.Stencil.Persistence
import StencilPlan.Proofs.Threads.Nesting
import StencilPlan.Proofs.Solution.Accounts
import StencilPlan.Proofs.Arith.Ceiling
import StencilPlan.Proofs.Threads.Budget
import StencilPlan.Proofs.Dim.Order
import StencilPlan.Proofs.Dim.Edits
import StencilPlan.Proofs.Rank.Factors
import StencilPlan.Proofs.Rank.Grid
import StencilPlan.Proofs.Dim.Reshaping
