import StencilPlan.Rank.Placement
import StencilPlan.Solution.Basic
import StencilPlan.Tiling.Resolution

/-!
# Preparing a solution

A rank prepares by itself until it has a plan; then it sets up its halo buffers, which takes a
meeting with the others, and meets them once more at the end. The settings of the caller are only
read.
-/

namespace StencilPlan.Station

variable {ν : Type} [Transport ν]

/-- How many ranks there are. -/
def ranks (s : Station ν) : Nat := Transport.size s.world.net

/-- Meets the other ranks. -/
def meet : Task (Station ν) Unit := do
  Task.note .trace s!"rank {(← get).solution.host.rank}: barrier"
  modify fun s => { s with world := { s.world with net := Transport.barrier s.world.net } }

/-- Finds the place of the rank and a plan for the settings of the caller. -/
def planAhead : Task (Station ν) (Placement × Plan) := do
  let s ← get
  let catalog := s.solution.catalog
  let (placement, placed) ←
    Task.apart s.solution.settings (placeRank catalog s.solution.host.rank s.ranks)
  let plan ← placed.resolve catalog
  return (placement, plan)

/-- Everything that the rank can do alone. -/
def draft : Task (Station ν) Prepared := do
  unprepare
  let s ← get
  let host := s.solution.host
  Task.note .info
    s!"preparing solution '{s.solution.name}' on rank {host.rank} of {s.ranks}"
  let (placement, plan) ← planAhead
  let threads ← ThreadSplit.compute (plan.sizes.threadBudget host.threads)
    plan.sizes.threadDivisor plan.sizes.blockThreads
  return { plan, topology := placement.topology, offsets := placement.offsets, threads }

/-- Work on the halo buffers, which are dropped if it finds a mistake. -/
def orRelease {α : Type} (x : Task (Site ν) α) : Task (Station ν) α := do
  match ← Task.attempt (onSite x) with
  | .ok a => return a
  | .error e =>
    onSite Site.release
    .reject e

/-- Lays out the halo buffers and offers the shared ones to the neighbors. -/
def offerHalos (p : Prepared) : Task (Station ν) PoolWords := do
  let s := (← get).solution
  orRelease (Site.offer s.stencil p.plan.sizes p.topology s.host.allocator)

/-- Attaches to what the neighbors offered. -/
def settleHalos (p : Prepared) (words : PoolWords) : Task (Station ν) Unit :=
  orRelease (Site.settle p.plan.sizes p.topology.rank words)

/-- Meets the others and keeps what was prepared. -/
def conclude (p : Prepared) : Task (Station ν) Unit := do
  meet
  let name := (← get).solution.name
  Task.noteWith .info do
    let blocks ← p.plan.counts.allBlocks
    return s!"solution '{name}' prepared: {p.plan.counts.allRegions} region(s), " ++
      s!"{blocks} block(s) per rank, {p.threads.regionThreads} x {p.threads.blockThreads} threads"
  modify fun s =>
    { s with solution := { s.solution with totals := .zero, prepared := some p } }

/-- Prepares the solution of one rank. -/
def prepare : Task (Station ν) Unit := do
  let p ← draft
  let words ← offerHalos p
  settleHalos p words
  conclude p

/-- Takes away what was prepared and meets the others a last time. -/
def finish : Task (Station ν) Unit := do
  unprepare
  meet
  Task.note .info s!"solution '{(← get).solution.name}' ended"

end StencilPlan.Station
