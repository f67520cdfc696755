import StencilPlan.Dim.Catalog
import StencilPlan.Arith.Rounding

/-!
# The dimension that block threads split along

When several threads share a block they split it along one dimension. Before the sub-blocks are
resolved that is the first outer dimension with a cluster for each thread, and the sub-blocks are
made slabs across it. After the resolution it is the first outer dimension with a sub-block for
each thread.
-/

namespace StencilPlan

/-- The first domain dimension, the innermost one left out, that passes a test. -/
def firstOuterDim? (c : Catalog) (test : DimPlace → Checked Bool) :
    List DimPlace → Checked (Option String)
  | [] => return none
  | d :: ds => do
    if d.name ≠ c.innerDim then
      if ← test d then
        return some d.name
    firstOuterDim? c test ds

/-- The first outer dimension in which the block holds a cluster for each thread, or the outermost
domain dimension. -/
def dimByClusters (c : Catalog) (block : DimVec) (threads : Int) : Checked String := do
  let found ← firstOuterDim? c (fun d => do
    let points ← c.cluster.nth d.domainIndex
    let clusters ← Idx.div (block.getD d.name 0) points
    return decide (clusters ≥ threads)) c.dimPlaces
  return found.getD c.outerDim

/-- The sub-block size along the dimension that threads split: one cluster, or with a single
domain dimension an even share of the block. -/
def slabSize (c : Catalog) (block : DimVec) (splitDim : String) (threads : Int) :
    Checked Int :=
  let points := c.cluster.getD splitDim 1
  if c.domainCount ≥ 2 then
    return points
  else do
    let share ← Idx.div (block.getD splitDim 0) (max threads 1)
    roundUp share points

/-- The first outer dimension in which the block holds a sub-block for each thread, or the
previous choice. -/
def dimBySubBlocks (c : Catalog) (block subBlock : DimVec) (threads : Int)
    (previous : String) : Checked String := do
  let found ← firstOuterDim? c (fun d => do
    let subBlocks ← ceilDiv (block.getD d.name 0) (subBlock.getD d.name 0)
    return decide (subBlocks ≥ threads)) c.dimPlaces
  return found.getD previous

end StencilPlan
