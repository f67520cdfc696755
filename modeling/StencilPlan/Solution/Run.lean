import StencilPlan.Solution.Basic

/-!
# Running a solution

A prepared solution exchanges halos and runs nested programs on its teams of threads. The interior
is computed in the middle of an exchange if the settings say so, and after it otherwise.
-/

namespace StencilPlan.Station

variable {ν : Type}

section Exchange

variable [Transport ν]

/-- Begins an exchange. -/
def openExchange (packer : Packer) : Task (Station ν) (Exchange ν) := do
  let s := (← get).solution
  let p ← s.require "exchange_halos"
  (Exchange.start s.halos p.topology packer p.plan.sizes.overlapComms : Checked _)

/-- Adds an exchange that succeeded to the totals. Yields what the caller saw of it. -/
def closeExchange (x : Exchange ν) : Task (Station ν) (List ExchangeEvent) := do
  let s ← get
  let totals ← (s.solution.totals.add x.stats : Checked _)
  modify fun s => { s with solution := { s.solution with totals } }
  return if s.solution.current.overlapComms then x.events else x.events ++ [.interior]

/-- Exchanges all halos, with a network that does not need the other ranks to move too. -/
def exchange (packer : Packer) : Task (Station ν) (Traffic × List ExchangeEvent) := do
  let x ← openExchange packer
  let (x, world, failure) := x.run (← get).world
  modify fun s => { s with world }
  match failure with
  | some e => Task.fail e
  | none =>
    if ¬ x.finished then
      Task.fail (.fault .stalled)
    let events ← closeExchange x
    return (x.stats, events)

end Exchange

/-- The teams of threads, set up when they are needed for the first time. -/
def needTeams (func : String) : Task (Station ν) ThreadTeams := do
  let s := (← get).solution
  let p ← s.require func
  match s.teams with
  | some t => return t
  | none =>
    let t ← ThreadTeams.build p.threads
    modify fun s => { s with solution := { s.solution with teams := some t } }
    return t

/-- Runs a program on the teams of threads. Yields what can be seen from inside, and the level
afterwards. -/
def runNested (func : String) (p : NestProgram) : Task (Station ν) (List NestEvent × Nat) := do
  let teams ← needTeams func
  let m := teams.execute p
  (m.result.getD (.ok ()) : Checked Unit)
  return (m.events, m.callerLevel)

/-- Runs a body for each of some regions. -/
def eachRegion (n : Nat) (body : Nat → NestProgram) : Task (Station ν) (List NestEvent × Nat) :=
  runNested "run_regions" (.regions n body .done)

/-- Runs a body for each of some blocks, which only a region may do. -/
def eachBlock (n : Nat) (body : Nat → NestProgram) : Task (Station ν) (List NestEvent × Nat) :=
  runNested "run_blocks" (.blocks n body .done)

end StencilPlan.Station
