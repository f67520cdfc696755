import StencilPlan.Tiling.Plan
import StencilPlan.Tiling.Binding

/-!
# Resolving all levels

The levels are resolved from the local domain inward, each against the level that contains it,
and the groups last. The settings of the caller are only read: the result is a plan with settings
of its own.
-/

namespace StencilPlan

/-- Cuts the sizes of a level down to those of the level that contains it. -/
def clampEntries (parent : DimVec) (level : Level) (stepDim : String) :
    List (String × Int) → Task Unit (List (String × Int))
  | [] => return []
  | (dim, size) :: rest => do
    let p := parent.getD dim 0
    let size ←
      if dim ≠ stepDim ∧ p > 0 ∧ size > p then do
        Task.note .warn
          s!"{level.name} size {size} in '{dim}' dimension exceeds enclosing size {p}; using {p}"
        pure p
      else pure size
    return (dim, size) :: (← clampEntries parent level stepDim rest)

namespace Settings

/-- Resolves one level against the one that contains it. -/
def cutLevel (s : Settings) (parent child : Level) (mults : DimVec) (stepDim : String) :
    Task Unit (Settings × CutReport) := do
  let clamped ← clampEntries (s.sizes parent) child stepDim (s.sizes child).entries
  let (sizes, report) ←
    cutTiles (s.sizes parent) parent.name ⟨clamped⟩ child.name mults stepDim
  return (s.withSizes child sizes, report)

/-- Resolves a group of tiles: an unset entry is one tile, others are rounded up to whole ones. -/
def cutGroup (s : Settings) (parent group grouped : Level) (stepDim : String) :
    Task Unit (Settings × CutReport) := do
  let asked := (s.sizes group).map fun dim v => if dim ≠ stepDim ∧ v = 0 then 1 else v
  let (sizes, report) ←
    cutTiles (s.sizes parent) parent.name asked group.name (s.sizes grouped) stepDim
  return (s.withSizes group sizes, report)

/-- Refuses the first local-domain size that is not a positive multiple of its cluster. -/
def checkLocalDomain (cluster : DimVec) : List (String × Int) → Outcome Unit
  | [] => return ()
  | (dim, size) :: rest => do
    let points := cluster.getD dim 1
    if size ≤ 0 then
      throw (.tiling (.unresolvedSize .localDomain dim size))
    let excess ← (Idx.rem size points : Checked Int)
    if excess ≠ 0 then
      throw (.tiling (.notMultiple .localDomain dim size points))
    checkLocalDomain cluster rest

/-- Makes the steps of regions, blocks and mini-blocks nest: an unset one follows the block, a
region spans at least the steps of its blocks and a mini-block at most those. -/
def resolveSteps (s : Settings) (stepDim : String) : Task Unit Settings := do
  let asked (t : DimVec) : Int := max (t.getD stepDim 0) 0
  let b := asked s.block
  let r := if asked s.region = 0 then b else asked s.region
  let r ←
    if r < b then do
      Task.note .warn
        s!"region size {r} in '{stepDim}' dimension is below block size {b}; using {b}"
      pure b
    else pure r
  let mb := asked s.miniBlock
  let mb := if mb = 0 ∨ (b > 0 ∧ mb > b) then b else mb
  return { s with
    region := s.region.set stepDim r
    block := s.block.set stepDim b
    miniBlock := s.miniBlock.set stepDim mb }

/-- Gives the sub-blocks the shape of slabs where several threads share a block and no sub-block
size was given. Also the dimension the slabs are cut along. -/
def slabSubBlocks (s : Settings) (c : Catalog) (threads : Int) : Checked (Settings × String) := do
  if threads > 1 then
    let total ← s.subBlock.sum
    if total = 0 then
      let dim ← dimByClusters c s.block threads
      let size ← slabSize c s.block dim threads
      return ({ s with subBlock := s.subBlock.set dim size }, dim)
  return (s, c.outerDim)

/-- The number of block threads as a size. -/
def threadsPerBlock (s : Settings) : Int := min (s.blockThreads : Int) Idx.max

/-- Resolves every level. The sizes of the local domain must be set, to whole clusters. -/
def resolve (s : Settings) (c : Catalog) : Task Unit Plan := do
  let stepDim := c.stepDim
  let cluster := c.cluster
  checkLocalDomain cluster s.localDomain.entries
  let s ← s.resolveSteps stepDim
  let (s, regions) ← s.cutLevel .localDomain .region cluster stepDim
  Task.note .info s!"num-regions-per-local-domain-per-step: {regions.total}"
  let (s, blocks) ← s.cutLevel .region .block cluster stepDim
  Task.note .info s!"num-blocks-per-region-per-step: {blocks.total}"
  let (s, miniBlocks) ← s.cutLevel .block .miniBlock cluster stepDim
  Task.note .info s!"num-mini-blocks-per-block-per-step: {miniBlocks.total}"
  let threads := s.threadsPerBlock
  let (s, splitDim) ← (s.slabSubBlocks c threads : Checked _)
  let (s, subBlocks) ← s.cutLevel .miniBlock .subBlock cluster stepDim
  Task.note .info s!"num-sub-blocks-per-mini-block-per-step: {subBlocks.total}"
  let splitDim ←
    if s.bindBlockThreads ∧ threads > 1 then do
      let d ← (dimBySubBlocks c s.block s.subBlock threads splitDim : Checked _)
      Task.note .info (s!"only the sub-block size in the '{d}' dimension is used at run-time " ++
        s!"because block-thread binding is enabled on {threads} block threads")
      pure d
    else pure splitDim
  let (s, blockGroups) ← s.cutGroup .region .blockGroup .block stepDim
  let (s, miniBlockGroups) ← s.cutGroup .block .miniBlockGroup .miniBlock stepDim
  let (s, subBlockGroups) ← s.cutGroup .miniBlock .subBlockGroup .subBlock stepDim
  let counts : TileCounts :=
    { regions, blocks, miniBlocks, subBlocks, blockGroups, miniBlockGroups, subBlockGroups }
  let plan : Plan := { sizes := s, counts, splitDim, stepDim, cluster }
  plan.validate
  let t := plan.temporal
  Task.note .debug (s!"temporal blocking {t.blocksSpanSteps}, " ++
    s!"wave-front rank tiling {t.waveFrontRank}, wave-front block tiling {t.waveFrontBlock}")
  return plan

end Settings

end StencilPlan
