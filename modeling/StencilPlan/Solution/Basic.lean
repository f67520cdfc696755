import StencilPlan.Halo.Exchange
import StencilPlan.Settings.Option
import StencilPlan.Text.Quoted
import StencilPlan.Threads.Nest
import StencilPlan.Tiling.Plan

/-!
# Solutions

A solution holds a stencil with the settings for it. Preparing it adds what follows from them: the
place of the rank, a plan of all tiles, a layout of threads and the halo buffers. Every change of
the settings takes that away again.
-/

namespace StencilPlan

/-- Where a solution runs. -/
structure Host where
  rank : Nat
  /-- Threads of the machine, at least one. -/
  threads : Nat
  allocator : Allocator
  deriving DecidableEq, Repr

/-- A host with at least one thread. -/
def Host.new (rank threads : Nat) (allocator : Allocator) : Host :=
  { rank, threads := max threads 1, allocator }

/-- What preparing a solution adds, apart from the halo buffers. -/
structure Prepared where
  plan : Plan
  topology : Topology
  /-- Global index of the first point of this rank, per domain dimension. -/
  offsets : DimVec
  threads : ThreadSplit
  deriving DecidableEq, Repr

/-- A stencil with its settings, and what was prepared for them. -/
structure Solution where
  host : Host
  stencil : Stencil
  /-- The settings of the caller, before anything is resolved. -/
  settings : Settings
  prepared : Option Prepared
  halos : HaloTable
  /-- The teams of threads, once they were needed. -/
  teams : Option ThreadTeams
  /-- Sum over all exchanges since the solution was prepared. -/
  totals : Traffic

namespace Solution

/-- A solution that was never prepared. -/
def new (host : Host) (stencil : Stencil) (maxThreads : Nat) : Solution where
  host := host
  stencil := stencil
  settings := .initial stencil.catalog maxThreads
  prepared := none
  halos := .empty
  teams := none
  totals := .zero

def name (s : Solution) : String := s.stencil.name

def catalog (s : Solution) : Catalog := s.stencil.catalog

def isPrepared (s : Solution) : Bool := s.prepared.isSome

/-- The resolved settings of a prepared solution, else those of the caller. -/
def current (s : Solution) : Settings :=
  match s.prepared with
  | some p => p.plan.sizes
  | none => s.settings

/-- What was prepared, or the error of a call that needs it. -/
def require (s : Solution) (func : String) : Except PlanError Prepared :=
  match s.prepared with
  | some p => .ok p
  | none => .error (.notPrepared func)

/-- How a solution on one of `ranks` ranks is shown. -/
def display (s : Solution) (ranks : Nat) : String :=
  s!"Solution \x7b name: {Text.quoted s.name}, env: KernelEnv \x7b rank: {s.host.rank}, " ++
    s!"num_ranks: {ranks}, host_threads: {s.host.threads} \x7d, prepared: {s.isPrepared} \x7d"

end Solution

/-- A solution and the world around it. -/
structure Station (ν : Type) where
  solution : Solution
  world : World ν

namespace Station

variable {ν : Type}

/-- Work on the halo buffers. -/
def onSite {α : Type} (x : Task (Site ν) α) : Task (Station ν) α :=
  Task.zoom (fun s => ⟨s.solution.halos, s.world⟩)
    (fun site s => { solution := { s.solution with halos := site.table }, world := site.world }) x

/-- Work on the settings of the caller. -/
def onSettings {α : Type} (x : Task Settings α) : Task (Station ν) α :=
  Task.zoom (·.solution.settings)
    (fun settings s => { s with solution := { s.solution with settings } }) x

/-- Takes away what was prepared, if anything was. -/
def unprepare : Task (Station ν) Unit := do
  let s ← get
  if s.solution.isPrepared then
    modify fun s => { s with solution := { s.solution with prepared := none } }
    Task.note .debug s!"solution '{s.solution.name}' is no longer prepared"
    onSite Site.release
    modify fun s => { s with solution := { s.solution with teams := none } }

/-- Changes the settings in any way. -/
def edit (f : Settings → Settings) : Task (Station ν) Unit := do
  unprepare
  onSettings (modify f)

/-- Applies an option. -/
def setOption (name value : String) : Task (Station ν) Unit := do
  unprepare
  let catalog := (← get).solution.catalog
  onSettings (Settings.setOption catalog name value)

end Station

end StencilPlan
