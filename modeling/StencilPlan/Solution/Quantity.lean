import StencilPlan.Solution.Basic

/-!
# Setting and asking for sizes

Six quantities can be set and asked for, dimension by dimension. What is asked for is the resolved
value once the solution is prepared; two quantities are not known before.
-/

namespace StencilPlan

/-- A quantity with a value in each dimension. -/
inductive Quantity where
  | numRanks
  | rankIndex
  | overallDomainSize
  | rankDomainSize
  | regionSize
  | blockSize
  deriving DecidableEq, Repr

namespace Quantity

def all : List Quantity :=
  [numRanks, rankIndex, overallDomainSize, rankDomainSize, regionSize, blockSize]

def name : Quantity → String
  | numRanks => "num_ranks"
  | rankIndex => "rank_index"
  | overallDomainSize => "overall_domain_size"
  | rankDomainSize => "rank_domain_size"
  | regionSize => "region_size"
  | blockSize => "block_size"

/-- How a call that sets the quantity is named. -/
def setter (q : Quantity) : String := "set_" ++ q.name

/-- How a call that asks for the quantity is named. -/
def getter (q : Quantity) : String := "get_" ++ q.name

/-- The sizes of tiles also have a value in the step dimension. -/
def spansSteps : Quantity → Bool
  | regionSize | blockSize => true
  | _ => false

/-- Whether the quantity is only known of a prepared solution. -/
def needsPrepared : Quantity → Bool
  | rankIndex | overallDomainSize => true
  | _ => false

/-- The quantity in some settings. -/
def read (q : Quantity) (s : Settings) : DimVec :=
  match q with
  | numRanks => s.numRanks
  | rankIndex => s.rankIndices
  | overallDomainSize => s.global
  | rankDomainSize => s.localDomain
  | regionSize => s.region
  | blockSize => s.block

/-- Settings with one value of the quantity replaced. A rank index makes all of them explicit. -/
def write (q : Quantity) (dim : String) (v : Int) (s : Settings) : Settings :=
  match q with
  | numRanks => { s with numRanks := s.numRanks.set dim v }
  | rankIndex => { s with rankIndices := s.rankIndices.set dim v, explicitRankIndices := true }
  | overallDomainSize => { s with global := s.global.set dim v }
  | rankDomainSize => { s with localDomain := s.localDomain.set dim v }
  | regionSize => { s with region := s.region.set dim v }
  | blockSize => { s with block := s.block.set dim v }

end Quantity

namespace Solution

/-- The value of a quantity in a dimension. -/
def get (s : Solution) (q : Quantity) (dim : String) : Except PlanError Int := do
  let _ ← s.catalog.check dim q.getter (.tile q.spansSteps)
  if q.needsPrepared then
    let _ ← s.require q.getter
  match q, s.prepared with
  | .rankIndex, some p => return p.topology.indices.getD dim 0
  | _, _ => return (q.read s.current).getD dim 0

/-- Global index of the first point of this rank. -/
def firstIndex (s : Solution) (dim : String) : Except PlanError Int := do
  let func := "get_first_rank_domain_index"
  let _ ← s.catalog.check dim func .domainOnly
  let p ← s.require func
  return p.offsets.getD dim 0

/-- Global index of the last point of this rank. -/
def lastIndex (s : Solution) (dim : String) : Outcome Int := do
  let func := "get_last_rank_domain_index"
  let _ ← s.catalog.check dim func .domainOnly
  let p ← s.require func
  let behind ← (Idx.add (p.offsets.getD dim 0) (p.plan.sizes.localDomain.getD dim 0) : Checked _)
  (Idx.sub behind 1 : Checked _)

end Solution

namespace Station

variable {ν : Type}

/-- Sets a quantity in one dimension. -/
def set (q : Quantity) (dim : String) (v : Int) : Task (Station ν) Unit := do
  let _ ← (← get).solution.catalog.check dim q.setter (.tile q.spansSteps)
  Task.note .trace s!"{q.setter}({dim}, {v})"
  edit (q.write dim v)

end Station

end StencilPlan
