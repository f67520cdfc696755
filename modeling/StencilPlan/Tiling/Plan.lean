import StencilPlan.Settings.Basic
import StencilPlan.Tiling.Subsets

/-!
# Tiling plans

A plan holds settings in which every level has a size, and how many tiles of each level its parent
holds. `Plan.validate` checks that the levels nest and are whole clusters.
-/

namespace StencilPlan

/-- How many tiles of each level there are, each per tile of its parent. -/
structure TileCounts where
  regions : CutReport
  blocks : CutReport
  miniBlocks : CutReport
  subBlocks : CutReport
  blockGroups : CutReport
  miniBlockGroups : CutReport
  subBlockGroups : CutReport
  deriving DecidableEq, Repr

namespace TileCounts

def allRegions (n : TileCounts) : Int := n.regions.total

def allBlocks (n : TileCounts) : Checked Int := Idx.mul n.regions.total n.blocks.total

def allMiniBlocks (n : TileCounts) : Checked Int := do
  Idx.mul (← n.allBlocks) n.miniBlocks.total

def allSubBlocks (n : TileCounts) : Checked Int := do
  Idx.mul (← n.allMiniBlocks) n.subBlocks.total

end TileCounts

/-- Steps that a region, a block and a mini-block span. -/
structure Temporal where
  regionSteps : Int
  blockSteps : Int
  miniBlockSteps : Int
  deriving DecidableEq, Repr

namespace Temporal

/-- Blocks span steps. -/
def blocksSpanSteps (t : Temporal) : Bool := t.blockSteps > 0

/-- Regions are traversed as a wave front of several steps. -/
def waveFrontRank (t : Temporal) : Bool := t.regionSteps > 1

/-- Mini-blocks are traversed as a wave front inside a block. -/
def waveFrontBlock (t : Temporal) : Bool := t.miniBlockSteps > 0

end Temporal

/-- Resolved settings with the numbers of tiles. -/
structure Plan where
  /-- The settings, every size resolved. -/
  sizes : Settings
  counts : TileCounts
  /-- The domain dimension that block threads split along. -/
  splitDim : String
  stepDim : String
  cluster : DimVec
  deriving DecidableEq, Repr

namespace Plan

/-- The steps that tiles span. -/
def temporal (p : Plan) : Temporal where
  regionSteps := p.sizes.region.getD p.stepDim 0
  blockSteps := p.sizes.block.getD p.stepDim 0
  miniBlockSteps := p.sizes.miniBlock.getD p.stepDim 0

/-- Points of one block, over the domain dimensions. -/
def blockPoints (p : Plan) : Checked Int :=
  Idx.product ((p.sizes.block.entries.filter (·.1 ≠ p.stepDim)).map (·.2))

/-- Checks the levels of one dimension, outer to inner; `outer` is the level before them. -/
def validateLevels (sizes : Settings) (dim : String) (points : Int)
    (outer : Option (Level × Int)) : List Level → Outcome Unit
  | [] => return ()
  | l :: ls => do
    let size := (sizes.sizes l).getD dim 0
    if size ≤ 0 then
      throw (.tiling (.unresolvedSize l dim size))
    let excess ← (Idx.rem size points : Checked Int)
    if excess ≠ 0 then
      throw (.tiling (.notMultiple l dim size points))
    match outer with
    | some (ol, osize) =>
      if size > osize then
        throw (.tiling (.nestingViolation ol l dim osize size))
    | none => pure ()
    validateLevels sizes dim points (some (l, size)) ls

/-- Checks that all levels are whole clusters, nest, and span no negative number of steps. -/
def validate (p : Plan) : Outcome Unit := do
  p.cluster.entries.forM fun (dim, points) =>
    validateLevels p.sizes dim points none Level.nested
  let t := p.temporal
  if t.regionSteps < 0 ∨ t.blockSteps < 0 ∨ t.miniBlockSteps < 0 then
    throw (.tiling (.unresolvedSize .region p.stepDim
      (min (min t.regionSteps t.blockSteps) t.miniBlockSteps)))

/-- The check as an assertion: what it finds is a fault. -/
def assertValid (p : Plan) : Checked Unit :=
  match p.validate with
  | .ok () => .ok ()
  | .error (.tiling e) => .error (.broken "TilingPlan" e)
  | .error (.fault f) => .error f

end Plan

end StencilPlan
