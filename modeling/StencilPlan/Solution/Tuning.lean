import StencilPlan.Solution.Basic
import StencilPlan.Tiling.Resolution

/-!
# Tuning

A tuner sets candidate sizes, one at a time, asks what they resolve to and times a few steps.
Candidates never touch the local domain, so the solution stays prepared and only its plan changes.
-/

namespace StencilPlan

/-- What the candidates resolve to. -/
structure CandidateReport where
  counts : TileCounts
  allBlocks : Int
  blockPoints : Int
  blockFlops : Nat
  splitDim : String
  temporal : Temporal
  deriving DecidableEq, Repr

namespace Settings

/-- Sets a candidate. A block candidate also clears the smaller levels of all domain dimensions,
which are then derived from the block again. -/
def withCandidate (s : Settings) (c : Catalog) (l : Level) (dim : String) (v : Int) : Settings :=
  let s := s.withSizes l ((s.sizes l).set dim v)
  let clear (t : DimVec) : DimVec := c.domain.names.foldl (fun t d => t.set d 0) t
  match l with
  | .block => { s with miniBlock := clear s.miniBlock, subBlock := clear s.subBlock }
  | _ => s

/-- The settings with the place and the domain of a plan. -/
def placedAs (s : Settings) (p : Plan) : Settings :=
  { s with
    global := p.sizes.global
    localDomain := p.sizes.localDomain
    numRanks := p.sizes.numRanks
    rankIndices := p.sizes.rankIndices }

end Settings

/-- The report on a plan for a stencil. -/
def Plan.report (p : Plan) (flopsPerPoint : Nat) : Checked CandidateReport := do
  let points ← p.blockPoints
  let blocks ← p.counts.allBlocks
  let flops ← Word.mul points.toNat flopsPerPoint
  return {
    counts := p.counts
    allBlocks := blocks
    blockPoints := points
    blockFlops := flops
    splitDim := p.splitDim
    temporal := p.temporal }

/-- The least time of a trial, in nanoseconds. -/
def Solution.leastTrial (s : Solution) : Checked Nat := s.settings.autoTuneMinSecs.nanoseconds

namespace Station

variable {ν : Type}

/-- Sets one size for the next trial. -/
def propose (l : Level) (dim : String) (v : Int) : Task (Station ν) Unit := do
  if l = .localDomain then
    .reject (.unknownOption s!"{l.name} size is not tunable")
  let catalog := (← get).solution.catalog
  let _ ← catalog.check dim "set_candidate" (.tile l.spansSteps)
  Task.note .debug s!"tuning candidate: {l.name} size {v} in '{dim}' dimension"
  onSettings (modify (·.withCandidate catalog l dim v))

/-- Resolves all levels again, on the place that was found when the solution was prepared. The old
plan stays if that fails. -/
def resolveTrial : Task (Station ν) CandidateReport := do
  let s := (← get).solution
  let p ← s.require "resolve_and_report"
  let plan ← (s.settings.placedAs p.plan).resolve s.catalog
  let report ← (plan.report s.stencil.flopsPerPoint : Checked _)
  modify fun t =>
    { t with solution := { t.solution with prepared := some { p with plan } } }
  return report

/-- Calls `step` with 0, 1, … until the clock, read after each step, shows that the time is over.
Yields how many steps that took. -/
def timeSteps (least : Nat) (step : Nat → Outcome Unit) (done : Nat) : List Nat → Outcome Nat
  | [] => return done
  | elapsed :: clock => do
    step done
    if elapsed ≥ least then return done + 1
    timeSteps least step (done + 1) clock

/-- Times steps of a prepared solution. -/
def measure (least : Nat) (clock : List Nat) (step : Nat → Outcome Unit) :
    Task (Station ν) Nat := do
  let _ ← (← get).solution.require "measure"
  (timeSteps least step 0 clock : Outcome Nat)

end Station

end StencilPlan
